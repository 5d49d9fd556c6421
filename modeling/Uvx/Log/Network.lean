import Uvx.Common.Channel
import Uvx.Log.Datagrams
import Uvx.Log.Wire
import Uvx.Udp.Defs

/-!
# Loggers and the log server

Any number of loggers send to the server of `test/log-server.c` over a network that may lose, repeat and
reorder datagrams. In between, user code may keep what `uvx_log_serialize` made and send it later, with
any logger. The `Bus` says what all this is for: a logger says something, and the server shows what it is
told. The server's output is that of the bus (`printed_eq`), in every order of steps.
-/

namespace Uvx.Log

open Net Loge Send

/-! ## The server -/

/-- The log server: `log_count`, and the items shown, each with its count. -/
structure LogServer where
  addr : SockAddr
  logCount : UInt32
  printed : List (Item × UInt32)
  /-- A string was read past the end of what had been received. -/
  overread : Bool

/-- `on_recv` of the log server, which reads the strings of an item where the offsets say they are. -/
def onRecv (data : List UInt8) (server : LogServer) : LogServer :=
  match readItem (fun i => data.getD i 0) data.length with
  | some it =>
    { server with
      printed := server.printed ++ [(it, server.logCount)]
      logCount := server.logCount + 1 }
  | none => { server with overread := true }

/-! ## The system -/

/-- Loggers, the serialized logs that user code holds, the network and the server. -/
structure Sys (ι : Type) where
  loggers : ι → State
  held : List (List UInt8)
  network : Channel (SockAddr × List UInt8)
  server : LogServer

inductive Action (ι : Type)
  | call (i : ι) (e : Event)
  /-- `UVX_LOG` -/
  | log (i : ι) (ctx : Context) (level : Int32) (tags : Option CString) (text : CString)
      (file : Option CString) (line : Int32)
  /-- `uvx_log_serialize` or `uvx_log_serialize_bin`, into a buffer that user code keeps. -/
  | serialize (i : ι) (env : Env) (buf : ℕ → UInt8) (bufsize : ℕ) (level : Int32)
      (tags : Option CString) (msg : Msg) (file : Option CString) (line : Int32)
  /-- `UVX_LOG_SERIALIZE` -/
  | logSerialize (i : ι) (env : Env) (buf : ℕ → UInt8) (bufsize : ℕ) (level : Int32)
      (tags : Option CString) (text : CString) (file : Option CString) (line : Int32)
  /-- `uvx_log_send_serialized` of the serialized log number `k`. -/
  | sendSerialized (i : ι) (k : ℕ) (status : ℤ)
  /-- The network takes datagram number `k` to the server. -/
  | deliver (k : ℕ)

/-- The status that `uv_udp_send` returns during a call. -/
def Event.status : Event → ℤ
  | .enable _ => 0
  | .send ctx .. | .sendBin ctx .. => ctx.status

variable {ι : Type} [DecidableEq ι]

/-- The state of logger `i` becomes `s'`. What it has passed to `uv_udp_send` meanwhile is sent if libuv
has accepted it. -/
def Sys.advance (s : Sys ι) (i : ι) (s' : State) (status : ℤ) : Sys ι :=
  { s with
    loggers := Function.update s.loggers i s'
    network :=
      if status = 0 then
        s.network.send (s'.net.datagrams.drop (s.loggers i).net.datagrams.length)
      else s.network }

/-- What an action does. -/
def Action.handle : Action ι → Sys ι → Sys ι
  | .call i e, s => s.advance i (Log.handle e (s.loggers i)) e.status
  | .log i ctx level tags text file line, s =>
    let l := s.loggers i
    s.advance i { l with net := (Macro.uvxLog ctx l.xlog level tags text file line l.net).1 } ctx.status
  | .serialize i env buf bufsize level tags msg file line, s =>
    let r := uvxLogSerializeBin env (s.loggers i).xlog buf bufsize level tags msg file line
    { s with held := s.held ++ [bytes r.1 r.2] }
  | .logSerialize i env buf bufsize level tags text file line, s =>
    let r := Macro.uvxLogSerialize env (s.loggers i).xlog buf bufsize level tags text file line
    { s with held := s.held ++ [bytes r.1 r.2] }
  | .sendSerialized i k status, s =>
    let l := s.loggers i
    s.advance i { l with net := (uvxLogSendSerialized l.xlog (s.held.getD k []) status l.net).1 } status
  | .deliver k, s =>
    { s with
      network := s.network.deliver k
      server :=
        match s.network.sent[k]? with
        | some d => Udp.uvxOnUdpRecv (some onRecv) d.2.length d.2 s.server
        | none => s.server }

/-- The buffers of user code have 284 bytes at least, a formatted text is shorter than 2 GiB, and what is
delivered was sent to the server. -/
def Action.Enabled (s : Sys ι) : Action ι → Prop
  | .call .. => True
  | .log _ _ _ _ text _ _ => text.length < 2 ^ 31
  | .serialize _ _ _ bufsize .. => 284 ≤ bufsize
  | .logSerialize _ _ _ bufsize _ _ text _ _ => 284 ≤ bufsize ∧ text.length < 2 ^ 31
  | .sendSerialized _ k _ => k < s.held.length
  | .deliver k => ∃ d, s.network.sent[k]? = some d ∧ d.1 = s.server.addr

def Sys.Step (s : Sys ι) (a : Action ι) (s' : Sys ι) : Prop := a.Enabled s ∧ s' = a.handle s

/-- The loggers have been initialised, the network is quiet and the server has started. -/
structure Sys.Initial (s : Sys ι) : Prop where
  loggers : ∀ i, ∃ uv xudp loge ip port name pid,
    s.loggers i = start uv xudp loge ip port name pid
  held : s.held = []
  network : s.network = .empty
  logCount : s.server.logCount = 1
  printed : s.server.printed = []
  overread : s.server.overread = false

/-! ## The bus -/

/-- The purpose of the system: what the loggers say is on a channel to the server. What is not said, by a
disabled logger or for lack of room, is `none`. -/
structure Bus (ι : Type) where
  loggers : ι → LogeT
  held : List (Option Item)
  channel : Channel (Option Item)

/-- Something is said, if libuv sends it. -/
def Bus.speak (t : Bus ι) (status : ℤ) (it : Option Item) : Bus ι :=
  if status = 0 then { t with channel := t.channel.send [it] } else t

/-- Something is kept to be said later. -/
def Bus.keep (t : Bus ι) (it : Option Item) : Bus ι := { t with held := t.held ++ [it] }

/-- What the bus does. -/
def Action.say : Action ι → Bus ι → Bus ι
  | .call i (.enable enabled), t =>
    { t with loggers := Function.update t.loggers i (logeEnable (t.loggers i) enabled) }
  | .call i (.send ctx level tags msg file line), t =>
    t.speak ctx.status (entry ctx.env (t.loggers i) maxBuf level tags (.text msg) file line)
  | .call i (.sendBin ctx level tags msg file line), t =>
    t.speak ctx.status (entry ctx.env (t.loggers i) maxBuf level tags msg file line)
  | .log i ctx level tags text file line, t =>
    t.speak ctx.status (entry ctx.env (t.loggers i) maxBuf level tags (.text (some text)) file line)
  | .serialize i env _ bufsize level tags msg file line, t =>
    t.keep (entry env (t.loggers i) bufsize level tags msg file line)
  | .logSerialize i env _ bufsize level tags text file line, t =>
    t.keep (entry env (t.loggers i) bufsize level tags (.text (some text)) file line)
  | .sendSerialized _ k status, t => t.speak status (t.held[k]?).join
  | .deliver k, t => { t with channel := t.channel.deliver k }

/-- The bus after some actions. -/
def Bus.run (t : Bus ι) (as : List (Action ι)) : Bus ι := as.foldl (fun t a => a.say t) t

/-- What the server is told: nothing by a `none`. -/
def Bus.told (t : Bus ι) : List Item := t.channel.received.reduceOption

/-- What has been said to the server, in order. -/
def Bus.said (t : Bus ι) : List Item := t.channel.sent.reduceOption

/-- The bus of a system in which nothing has been said. -/
def Sys.bus (s : Sys ι) : Bus ι := ⟨fun i => (s.loggers i).xlog.loge, [], .empty⟩

/-! ## Datagrams -/

/-- What the server makes of a datagram. -/
def heard (b : List UInt8) : Option Item :=
  if b = [] then none else readItem (fun i => b.getD i 0) b.length

/-- A datagram that is empty or an item whose strings end inside it. -/
def Legible (b : List UInt8) : Prop := b ≠ [] → heard b ≠ none

/-- A serialized log is heard as what it says. -/
theorem heard_wire {loge : LogeT} (h : loge.Reachable) (env : Env) {bufsize : ℕ}
    (hbuf : 284 ≤ bufsize) (level line : Int32) (tags file : Option CString) (msg : Msg) :
    heard (wire env loge bufsize level tags msg file line)
        = entry env loge bufsize level tags msg file line ∧
      Legible (wire env loge bufsize level tags msg file line) := by
  have hheard : heard (wire env loge bufsize level tags msg file line) = _ :=
    entry_wire h env hbuf level line tags file msg
  refine ⟨hheard, ?_⟩
  rw [Legible, hheard, wire, entry]
  split_ifs
  · exact fun hne => absurd rfl hne
  · cases msg.carried (msgRoom loge bufsize tags file) with
    | none => exact fun hne => absurd rfl hne
    | some m => exact fun _ => Option.some_ne_none _

/-- The items with their counts, from 1 on. -/
def numbered (l : List Item) : List (Item × UInt32) :=
  l.mapIdx fun k it => (it, .ofNat (k + 1))

theorem numbered_concat (l : List Item) (it : Item) :
    numbered (l ++ [it]) = numbered l ++ [(it, .ofNat (l.length + 1))] := List.mapIdx_concat

omit [DecidableEq ι] in
theorem Bus.told_deliver (t : Bus ι) (k : ℕ) :
    Bus.told { t with channel := t.channel.deliver k }
      = t.told ++ ((t.channel.sent[k]?).join).toList := by
  show (t.channel.deliver k).received.reduceOption = _
  rw [Channel.received_deliver, List.reduceOption_append]
  congr 1
  rcases t.channel.sent[k]? with _ | _ | it
  · rfl
  · rfl
  · rfl

/-! ## The system does what the bus does -/

/-- The system in state `s` stands for the bus in state `t`. -/
structure Agree (s : Sys ι) (t : Bus ι) : Prop where
  loggers : ∀ i, (s.loggers i).xlog.loge = t.loggers i
  reachable : ∀ i, (t.loggers i).Reachable
  held : s.held.map heard = t.held
  heldLegible : ∀ b ∈ s.held, Legible b
  sent : s.network.sent.map (fun d => heard d.2) = t.channel.sent
  sentLegible : ∀ d ∈ s.network.sent, Legible d.2
  delivered : s.network.delivered = t.channel.delivered
  sound : t.channel.Sound
  printed : s.server.printed = numbered t.told
  logCount : s.server.logCount = .ofNat (t.told.length + 1)
  overread : s.server.overread = false

omit [DecidableEq ι] in
theorem Sys.Initial.agree {s : Sys ι} (h : s.Initial) : Agree s s.bus where
  loggers _ := rfl
  reachable i := by
    obtain ⟨uv, xudp, loge, ip, port, name, pid, hstart⟩ := h.loggers i
    show (s.loggers i).xlog.loge.Reachable
    rw [hstart]
    exact .init loge name pid
  held := by
    rw [h.held]
    rfl
  heldLegible b hb := by
    rw [h.held] at hb
    exact absurd hb List.not_mem_nil
  sent := by
    rw [h.network]
    rfl
  sentLegible d hd := by
    rw [h.network] at hd
    exact absurd hd List.not_mem_nil
  delivered := by
    rw [h.network]
    rfl
  sound := Channel.sound_empty
  printed := h.printed
  logCount := h.logCount
  overread := h.overread

namespace Agree

variable {s : Sys ι} {t : Bus ι}

/-- A logger passes the datagram `b` to libuv. -/
theorem speak (h : Agree s t) (i : ι) {s' : State} {b : List UInt8} {it : Option Item} (status : ℤ)
    (hloge : s'.xlog.loge = (s.loggers i).xlog.loge)
    (hdatagrams : s'.net.datagrams
      = (s.loggers i).net.datagrams ++ [((s.loggers i).xlog.targetAddr, b)])
    (hheard : heard b = it) (hlegible : Legible b) :
    Agree (s.advance i s' status) (t.speak status it) := by
  have hloggers : ∀ j, (Function.update s.loggers i s' j).xlog.loge = t.loggers j := by
    intro j
    by_cases hj : j = i
    · rw [hj, Function.update_self, hloge, h.loggers]
    · rw [Function.update_of_ne hj, h.loggers]
  have hdrop : s'.net.datagrams.drop (s.loggers i).net.datagrams.length
      = [((s.loggers i).xlog.targetAddr, b)] := by
    rw [hdatagrams, List.drop_left]
  rw [Sys.advance, Bus.speak, hdrop]
  split_ifs with hstatus
  · have htold : Bus.told { t with channel := t.channel.send [it] } = t.told :=
      congrArg List.reduceOption (h.sound.received_send [it])
    refine ⟨hloggers, h.reachable, h.held, h.heldLegible, ?_, ?_, h.delivered, h.sound.send [it], ?_,
      ?_, h.overread⟩
    · show (s.network.sent ++ [((s.loggers i).xlog.targetAddr, b)]).map _ = t.channel.sent ++ [it]
      rw [List.map_append, h.sent, List.map_singleton, hheard]
    · intro d hd
      rcases List.mem_append.mp hd with hd | hd
      · exact h.sentLegible d hd
      · obtain rfl := List.mem_singleton.mp hd
        exact hlegible
    · rw [htold]
      exact h.printed
    · rw [htold]
      exact h.logCount
  · exact ⟨hloggers, h.reachable, h.held, h.heldLegible, h.sent, h.sentLegible, h.delivered, h.sound,
      h.printed, h.logCount, h.overread⟩

omit [DecidableEq ι] in
/-- User code keeps the serialized log `b`. -/
theorem keep (h : Agree s t) {b : List UInt8} {it : Option Item} (hheard : heard b = it)
    (hlegible : Legible b) : Agree { s with held := s.held ++ [b] } (t.keep it) where
  loggers := h.loggers
  reachable := h.reachable
  held := by
    show (s.held ++ [b]).map heard = t.held ++ [it]
    rw [List.map_append, h.held, List.map_singleton, hheard]
  heldLegible c hc := by
    rcases List.mem_append.mp hc with hc | hc
    · exact h.heldLegible c hc
    · obtain rfl := List.mem_singleton.mp hc
      exact hlegible
  sent := h.sent
  sentLegible := h.sentLegible
  delivered := h.delivered
  sound := h.sound
  printed := h.printed
  logCount := h.logCount
  overread := h.overread

/-- A logger is enabled or disabled. -/
theorem enable (h : Agree s t) (i : ι) (enabled : Int32) :
    Agree ((Action.call i (.enable enabled)).handle s) ((Action.call i (.enable enabled)).say t) := by
  have hloge : ∀ j, Function.update t.loggers i (logeEnable (t.loggers i) enabled) j
      = (Function.update s.loggers i (Log.handle (.enable enabled) (s.loggers i)) j).xlog.loge ∧
        (Function.update t.loggers i (logeEnable (t.loggers i) enabled) j).Reachable := by
    intro j
    by_cases hj : j = i
    · rw [hj, Function.update_self, Function.update_self, ← h.loggers]
      exact ⟨rfl, .enable (h.loggers i ▸ h.reachable i) enabled⟩
    · rw [Function.update_of_ne hj, Function.update_of_ne hj]
      exact ⟨(h.loggers j).symm, h.reachable j⟩
  have hnetwork : ((Action.call i (.enable enabled)).handle s).network = s.network := by
    have hdrop : (Log.handle (.enable enabled) (s.loggers i)).net.datagrams.drop
        (s.loggers i).net.datagrams.length = [] := List.drop_length
    show (if (0 : ℤ) = 0 then s.network.send _ else s.network) = s.network
    rw [if_pos rfl, hdrop, Channel.send, List.append_nil]
  refine ⟨fun j => (hloge j).1.symm, fun j => (hloge j).2, h.held, h.heldLegible, ?_, ?_, ?_, h.sound,
    h.printed, h.logCount, h.overread⟩
  · rw [hnetwork]
    exact h.sent
  · rw [hnetwork]
    exact h.sentLegible
  · rw [hnetwork]
    exact h.delivered

/-- The server gets datagram number `k`. -/
theorem deliver (h : Agree s t) {k : ℕ} {d : SockAddr × List UInt8}
    (hd : s.network.sent[k]? = some d) :
    Agree ((Action.deliver k).handle s) ((Action.deliver k).say t) := by
  have hlegible := h.sentLegible d (List.mem_of_getElem? hd)
  have hentry : t.channel.sent[k]? = some (heard d.2) := by
    rw [← h.sent, List.getElem?_map, hd]
    rfl
  have htold : Bus.told ((Action.deliver k).say t) = t.told ++ (heard d.2).toList := by
    rw [Action.say, Bus.told_deliver, hentry]
    rfl
  have hk : k < t.channel.sent.length := (List.getElem?_eq_some_iff.mp hentry).1
  have hdelivered : s.network.delivered ++ [k] = t.channel.delivered ++ [k] := by rw [h.delivered]
  have hserver : ((Action.deliver k).handle s).server
      = Udp.uvxOnUdpRecv (some onRecv) d.2.length d.2 s.server := by
    simp only [Action.handle, hd]
  have hrecv : ((Action.deliver k).handle s).server.printed = numbered (t.told ++ (heard d.2).toList) ∧
      ((Action.deliver k).handle s).server.logCount
        = .ofNat ((t.told ++ (heard d.2).toList).length + 1) ∧
      ((Action.deliver k).handle s).server.overread = false := by
    rw [hserver, Udp.uvxOnUdpRecv]
    by_cases hempty : d.2 = []
    · -- an empty datagram does not reach `on_recv`
      rw [hempty, if_neg (by simp), heard, if_pos rfl, Option.toList_none, List.append_nil]
      exact ⟨h.printed, h.logCount, h.overread⟩
    · obtain ⟨it, hit⟩ := Option.ne_none_iff_exists'.mp (hlegible hempty)
      have hread : readItem (fun i => d.2.getD i 0) d.2.length = some it := by
        rw [heard, if_neg hempty] at hit
        exact hit
      have hpos : (0 : ℤ) < d.2.length := by
        have := List.length_pos_iff.mpr hempty
        omega
      rw [if_pos hpos, Int.toNat_natCast, List.take_length, onRecv, hread, hit, Option.toList_some,
        numbered_concat, List.length_append, List.length_singleton]
      refine ⟨?_, ?_, h.overread⟩
      · show s.server.printed ++ [(it, s.server.logCount)] = _
        rw [h.printed, h.logCount]
      · show s.server.logCount + 1 = _
        rw [h.logCount]
        simp
  rw [← htold] at hrecv
  exact ⟨h.loggers, h.reachable, h.held, h.heldLegible, h.sent, h.sentLegible, hdelivered,
    h.sound.deliver hk, hrecv.1, hrecv.2.1, hrecv.2.2⟩

/-- **Each action does to the system what it does to the bus.** -/
theorem handle (h : Agree s t) {a : Action ι} (ha : a.Enabled s) : Agree (a.handle s) (a.say t) := by
  have hreach : ∀ i, (s.loggers i).xlog.loge.Reachable := fun i => h.loggers i ▸ h.reachable i
  have hmax : 284 ≤ maxBuf := by decide
  have hdatagrams : ∀ (i : ι) addr b status,
      (uvxUdpSendToAddr (s.loggers i).xlog.xudp addr b status (s.loggers i).net).1.datagrams
        = (s.loggers i).net.datagrams ++ [(addr, b)] := by
    intro i addr b status
    simp only [uvxUdpSendToAddr, uvUdpSend]
    split
    · rfl
    · rfl
  cases a with
  | call i e =>
    cases e with
    | enable enabled => exact h.enable i enabled
    | send ctx level tags msg file line =>
      obtain ⟨hheard, hlegible⟩ :=
        heard_wire (hreach i) ctx.env hmax level line tags file (.text msg)
      refine h.speak i ctx.status rfl ?_ (hheard.trans (by rw [h.loggers i])) hlegible
      show (uvxLogSend ctx (s.loggers i).xlog level tags msg file line (s.loggers i).net).1.datagrams
        = _
      rw [uvxLogSend_eq (hreach i), hdatagrams]
    | sendBin ctx level tags msg file line =>
      obtain ⟨hheard, hlegible⟩ := heard_wire (hreach i) ctx.env hmax level line tags file msg
      refine h.speak i ctx.status rfl ?_ (hheard.trans (by rw [h.loggers i])) hlegible
      show (uvxLogSendBin ctx (s.loggers i).xlog level tags msg file line
        (s.loggers i).net).1.datagrams = _
      rw [uvxLogSendBin_eq (hreach i), hdatagrams]
  | log i ctx level tags text file line =>
    obtain ⟨hheard, hlegible⟩ :=
      heard_wire (hreach i) ctx.env hmax level line tags file (.text (some text))
    refine h.speak i ctx.status rfl ?_ (hheard.trans (by rw [h.loggers i])) hlegible
    show (Macro.uvxLog ctx (s.loggers i).xlog level tags text file line
      (s.loggers i).net).1.datagrams = _
    rw [uvxLog_eq_uvxLogSend (hreach i) ha, uvxLogSend_eq (hreach i), hdatagrams]
  | serialize i env buf bufsize level tags msg file line =>
    obtain ⟨hheard, hlegible⟩ := heard_wire (hreach i) env ha level line tags file msg
    rw [← logeItemBin_eq_wire (hreach i) env buf ha] at hheard hlegible
    exact h.keep (hheard.trans (by rw [h.loggers i])) hlegible
  | logSerialize i env buf bufsize level tags text file line =>
    obtain ⟨hheard, hlegible⟩ :=
      heard_wire (hreach i) env ha.1 level line tags file (.text (some text))
    rw [← wire_snprintf ha.2, ← logeItemBin_eq_wire (hreach i) env buf ha.1] at hheard hlegible
    exact h.keep (hheard.trans (by rw [h.loggers i])) hlegible
  | sendSerialized i k status =>
    have hk : k < s.held.length := ha
    refine h.speak i status rfl (hdatagrams i _ _ status) ?_ (h.heldLegible _ ?_)
    · rw [← h.held, List.getElem?_map, List.getD_eq_getElem _ _ hk, List.getElem?_eq_getElem hk]
      rfl
    · rw [List.getD_eq_getElem _ _ hk]
      exact List.getElem_mem hk
  | deliver k =>
    obtain ⟨d, hd, -⟩ := ha
    exact h.deliver hd

end Agree

/-! ## Runs -/

variable {s s' : Sys ι} {as : List (Action ι)}

theorem Sys.Initial.agree_run (h₀ : s.Initial) (h : Exec Sys.Step s as s') :
    Agree s' (s.bus.run as) := by
  refine h.invariant_actions (I := fun as s' => Agree s' (s.bus.run as)) h₀.agree ?_
  rintro as s₁ a _ hagree ⟨ha, rfl⟩
  rw [Bus.run, List.foldl_concat]
  exact hagree.handle ha

/-- **The server shows what it is told**, numbered in order of arrival, and reads no string past the
end of what it receives. -/
theorem printed_eq (h₀ : s.Initial) (h : Exec Sys.Step s as s') :
    s'.server.printed = numbered (s.bus.run as).told ∧ s'.server.overread = false := by
  have hagree := h₀.agree_run h
  exact ⟨hagree.printed, hagree.overread⟩

/-- One logger, and a server at the address to which it sends. -/
def quietSys : Sys Unit where
  loggers _ := start plainParser 9 ⟨.replicate 16 0, 0, 0, 0⟩ [] 8004 none 1
  held := []
  network := .empty
  server := ⟨⟨false, [], 8004⟩, 1, [], false⟩

theorem initial_quietSys : quietSys.Initial :=
  ⟨fun _ => ⟨plainParser, 9, ⟨.replicate 16 0, 0, 0, 0⟩, [], 8004, none, 1, rfl⟩, rfl, rfl, rfl, rfl,
    rfl⟩

/-- A log without texts that arrives twice. -/
def repeated : List (Action Unit) :=
  [.call () (.send ⟨⟨0, 0⟩, fun _ => 0, 0⟩ 0 none none none 7), .deliver 0, .deliver 0]

theorem exec_repeated : ∃ s', Exec Sys.Step quietSys repeated s' :=
  ⟨_, .snoc (.snoc (.snoc .nil ⟨trivial, rfl⟩) ⟨⟨_, rfl, rfl⟩, rfl⟩) ⟨⟨_, rfl, rfl⟩, rfl⟩⟩

theorem printed_eq_repeated : ∃ s', Exec Sys.Step quietSys repeated s' ∧
    s'.server.printed = numbered (quietSys.bus.run repeated).told ∧ s'.server.overread = false := by
  obtain ⟨s', h⟩ := exec_repeated
  exact ⟨s', h, printed_eq initial_quietSys h⟩

theorem map_fst_numbered (l : List Item) : (numbered l).map Prod.fst = l := by
  refine List.ext_getElem (by simp [numbered]) ?_
  intro k _ _
  simp [numbered]

/-- **What the network does to the logs.** Nothing is shown that has not been said; without repetition
nothing is shown more often than it was said, without overtaking the order is kept, and if every datagram
is delivered once then everything said is shown. -/
theorem printed_of_deliveries (h₀ : s.Initial) (h : Exec Sys.Step s as s') :
    let items := s'.server.printed.map Prod.fst
    let said := (s.bus.run as).said
    let delivered := s'.network.delivered
    let all := List.range s'.network.sent.length
    items ⊆ said ∧ (delivered.Nodup → items.Subperm said) ∧
      (delivered.Pairwise (· < ·) → items.Sublist said) ∧ (delivered.Perm all → items.Perm said) ∧
      (delivered = all → items = said) := by
  intro items said delivered all
  have hagree := h₀.agree_run h
  set c := (s.bus.run as).channel with hc
  have hitems : items = c.received.reduceOption := by
    have hmap := congrArg (List.map Prod.fst) hagree.printed
    rwa [map_fst_numbered] at hmap
  have hdelivered : delivered = c.delivered := hagree.delivered
  have hall : all = List.range c.sent.length := by
    have hlength := congrArg List.length hagree.sent
    rw [List.length_map] at hlength
    exact congrArg List.range hlength
  rw [hitems, hdelivered, hall]
  refine ⟨?_, ?_, ?_, ?_, ?_⟩
  · intro it hit
    rw [List.reduceOption_mem_iff] at hit
    exact List.reduceOption_mem_iff.mpr (c.received_subset hit)
  · intro hnodup
    obtain ⟨l, hperm, hsub⟩ := Channel.received_subperm hnodup
    exact ⟨l.reduceOption, hperm.filterMap id, hsub.filterMap id⟩
  · intro hincreasing
    exact (Channel.received_sublist hincreasing).filterMap id
  · intro hperm
    exact (Channel.received_perm hperm).filterMap id
  · intro heq
    rw [Channel.received_eq heq]
    rfl

theorem printed_of_deliveries_repeated : ∃ s', Exec Sys.Step quietSys repeated s' ∧
    s'.server.printed.map Prod.fst ⊆ (quietSys.bus.run repeated).said := by
  obtain ⟨s', h⟩ := exec_repeated
  exact ⟨s', h, (printed_of_deliveries initial_quietSys h).1⟩

end Uvx.Log
