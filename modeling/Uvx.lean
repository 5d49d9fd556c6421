import Uvx.Loge.Bounds
import Uvx.Loge.Fields
import Uvx.Loge.ValidText
import Uvx.Loge.Paths
import Uvx.Loge.Binary
import Uvx.Server.Life
import Uvx.Server.Shutdown
import Uvx.Server.Sweep
import Uvx.Server.Start
import Uvx.Server.Accepting
import Uvx.Client.Reconnect
import Uvx.Client.Usable
import Uvx.Client.Attempts
import Uvx.Client.CloseOnce
import Uvx.Client.Shutdown
import Uvx.Send.Released
import Uvx.Net.Peer
import Uvx.Net.Malformed
import Uvx.Log.Datagrams
import Uvx.Automem.Attach
import Uvx.Automem.Queue
import Uvx.Automem.Erase
import Uvx.Automem.Field
import Uvx.Loge.Format
import Uvx.Common.Channel
import Uvx.Log.Wire
import Uvx.Log.Network
import Uvx.LinkHash.Dict
import Uvx.LinkHash.Reinsert
import Uvx.LinkHash.Foreach
import Uvx.ArrayList.Cells
import Uvx.ArrayList.Calls
import Uvx.ArrayList.Sequence
import Uvx.ArrayList.Ownership
import Uvx.ArrayList.Bounds
import Uvx.Automem.Number
import Uvx.Common.Attributes
import Uvx.Automem.Record
import Uvx.LinkHash.Growth
import Uvx.Server.Growth
import Uvx.Server.Memory
import Uvx.Common.Dialogue
import Uvx.Udp.Echo
import Uvx.Client.Recover
import Uvx.Client.Heartbeat
import Uvx.Server.Linear
import Uvx.Common.Alike
import Uvx.LinkHash.Rename
import Uvx.LinkHash.Strings
import Uvx.Server.Idle
