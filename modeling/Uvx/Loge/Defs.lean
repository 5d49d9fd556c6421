import Uvx.Common.Buf

/-!
# Serializing log items: `loge.c`

Pointers into the output buffer are offsets from `buf`. The C strings handed in carry the proof that
no byte before their NUL is zero; a null pointer is `none`. Sizes computed in `unsigned int` are
reduced modulo `2 ^ 32`, and the assertions, which the release build compiles out, are recorded in
`Out.asserted` instead of stopping the run.
-/

namespace Uvx.Loge

/-- Conversion to `unsigned int`. -/
def toUnsigned (z : ℤ) : ℕ := (z % 2 ^ 32).toNat

/-- Conversion to `int`, in two's complement. -/
def toInt (z : ℤ) : ℤ := z.bmod (2 ^ 32)

/-- A NUL-terminated string: the bytes in front of its NUL. -/
structure CString where
  bytes : List UInt8
  nonzero : 0 ∉ bytes
deriving DecidableEq

namespace CString

/-- `strlen` -/
def length (s : CString) : ℕ := s.bytes.length

/-- `s[i]`, where the NUL ends the string. -/
def get (s : CString) (i : ℕ) : UInt8 := s.bytes.getD i 0

/-- The string `s + k`. -/
def drop (s : CString) (k : ℕ) : CString :=
  ⟨s.bytes.drop k, fun h => s.nonzero (List.mem_of_mem_drop h)⟩

end CString

/-- The text of a possibly null string; null reads as empty. -/
def textOf (s : Option CString) : List UInt8 :=
  (s.map CString.bytes).getD []

/-! ## `loge_t` -/

/-- `loge_t` -/
structure LogeT where
  name : Vector UInt8 16
  enabled : Int32
  pid : Int32
  nameLen : ℕ

/-- `loge_name`: copy the name, cut to 15 bytes. -/
def logeName (loge : LogeT) (name : Option CString) : LogeT :=
  match name with
  | none => loge
  | some name =>
    -- `LOGE_MIN(n, sizeof(loge->name) - 1)` compares as `size_t`, so a negative `int n` counts as huge
    let n := min (toUnsigned name.length) 15
    { loge with
      nameLen := n
      name := .ofFn fun i =>
        if i.val < n then name.get i else if i.val = n then 0 else loge.name[i] }

/-- The default name, `"loge"`. -/
def defaultName : CString := ⟨[108, 111, 103, 101], by decide⟩

/-- `loge_init`, in the process with id `pid`. -/
def logeInit (loge : LogeT) (name : Option CString) (pid : Int32) : LogeT :=
  { logeName loge (some (name.getD defaultName)) with enabled := 1, pid := pid }

/-- `loge_enable` -/
def logeEnable (loge : LogeT) (enabled : Int32) : LogeT :=
  { loge with enabled := enabled }

/-- The `loge_t` values reached by `loge_init` on any memory and later calls. -/
inductive LogeT.Reachable : LogeT → Prop
  | init (loge : LogeT) (name : Option CString) (pid : Int32) : Reachable (logeInit loge name pid)
  | reinit {loge : LogeT} (h : Reachable loge) (name : Option CString) :
      Reachable (logeName loge name)
  | enable {loge : LogeT} (h : Reachable loge) (enabled : Int32) :
      Reachable (logeEnable loge enabled)

/-- The bytes of `loge->name` up to its first NUL. -/
def LogeT.nameText (loge : LogeT) : List UInt8 :=
  loge.name.toList.takeWhile (· ≠ 0)

/-! ## Paths -/

/-- The last index of `c` in a list of bytes. -/
def lastIndex? (c : UInt8) : List UInt8 → Option ℕ
  | [] => none
  | a :: l =>
    match lastIndex? c l with
    | some i => some (i + 1)
    | none => if a = c then some 0 else none

/-- `strrchr`, as an index. -/
def strrchr (s : CString) (c : UInt8) : Option ℕ :=
  lastIndex? c s.bytes

/-- The loop of `strrchr_from`, from a nonnegative index down. -/
def strrchrDown (s : CString) (c : UInt8) : ℕ → Option ℕ
  | 0 => if s.get 0 = c then some 0 else none
  | i + 1 => if s.get (i + 1) = c then some (i + 1) else strrchrDown s c i

/-- `strrchr_from`. A negative `start` skips the loop and looks at the first byte only. -/
def strrchrFrom (s : CString) (start : ℤ) (c : UInt8) : Option ℕ :=
  strrchrDown s c start.toNat

/-- The loop of `shorten_path`, with `count` steps left. -/
def shortenLoop (file : CString) (slash : UInt8) : ℕ → Option ℕ → Option ℕ
  | count + 1, some (i + 1) => shortenLoop file slash count (strrchrFrom file (toInt i) slash)
  | _, lastSlash => lastSlash

/-- `shorten_path` of a non-null file, as the number of bytes dropped from its front. -/
def shortenIndex (file : CString) : ℕ :=
  let slash : UInt8 := 47
  let lastSlash := strrchr file slash
  let slash := if lastSlash.isNone then 92 else slash
  let lastSlash := if lastSlash.isNone then strrchr file slash else lastSlash
  match shortenLoop file slash 2 lastSlash with
  | some (i + 1) => i + 2
  | _ => 0

/-- `shorten_path`: keep the file name and at most two directories. -/
def shortenPath (file : Option CString) : Option CString :=
  file.map fun file => file.drop (shortenIndex file)

/-! ## The writers -/

/-- The output buffer, with the outcome of every assertion met so far, latest first. -/
structure Out extends Buf where
  asserted : List Bool

namespace Out

def check (o : Out) (b : Bool) : Out := { o with asserted := b :: o.asserted }

def store (o : Out) (i : ℕ) (v : UInt8) : Out := { o with toBuf := o.toBuf.store i v }

def copy (o : Out) (i : ℕ) (src : ℕ → UInt8) (n : ℕ) : Out := { o with toBuf := o.toBuf.copy i src n }

def storeLE (o : Out) (i w x : ℕ) : Out := { o with toBuf := o.toBuf.storeLE i w x }

end Out

/-- The test of `rfind_utf8_leading_byte_index`: `0-`, `110-`, `1110-` or `11110-`. -/
def isLeadingByte (c : UInt8) : Bool :=
  c.toNat >>> 7 = 0 || c.toNat >>> 5 = 6 || c.toNat >>> 4 = 14 || c.toNat >>> 3 = 30

/-- The loop of `rfind_utf8_leading_byte_index`, from a nonnegative index down. -/
def rfindDown (buf : ℕ → UInt8) : ℕ → ℕ
  | 0 => 0
  | i + 1 => if isLeadingByte (buf (i + 1)) then i + 1 else rfindDown buf i

/-- `rfind_utf8_leading_byte_index`; 0 also when there is no leading byte. -/
def rfindUtf8LeadingByteIndex (buf : ℕ → UInt8) (start : ℤ) : ℕ :=
  rfindDown buf start.toNat

/-- `write_str` -/
def writeStr (o : Out) (buf bufEnd : ℕ) (str : Option CString) : Out × ℕ :=
  let o := o.check (buf ≤ bufEnd)
  if buf = bufEnd then (o, bufEnd)
  else
    match str with
    | none => (o.store buf 0, buf + 1)
    | some str =>
      if str.get 0 = 0 then (o.store buf 0, buf + 1)
      else
        let n := toUnsigned (str.length + 1)
        -- a `buf` past `bufEnd` makes this difference wrap
        let n := min n (toUnsigned (bufEnd - buf))
        let o := o.copy buf str.get n
        let n := rfindUtf8LeadingByteIndex (fun i => o.byte (buf + i)) (toInt (n - 1))
        (o.store (buf + n) 0, buf + n + 1)

/-- `write_bin`; `none` is the null pointer, returned for truncated data. -/
def writeBin (o : Out) (buf bufEnd : ℕ) (data : Option (ℕ → UInt8)) (datasize : ℕ) :
    Out × Option ℕ :=
  let o := o.check (buf ≤ bufEnd)
  if buf = bufEnd then (o, some bufEnd)
  else
    match data with
    | none => (o.store buf 0, some (buf + 1))
    | some data =>
      let n := toUnsigned (datasize + 1)
      let n := min n (toUnsigned (bufEnd - buf))
      let o := o.copy buf data n
      let o := o.store (buf + n - 1) 0
      if n < toUnsigned (datasize + 1) then (o, none) else (o, some (buf + n))

/-! ## `loge_item_bin` -/

/-- `sizeof(loge_item_t)` -/
def sizeofItem : ℕ := 28

/-- `LOGE_MAXBUF` -/
def maxBuf : ℕ := 1024

/-- The arguments `msg` and `msglen`: `msglen == (unsigned int)-1` announces a text. Binary data is
the memory behind the pointer, of which `msglen` bytes belong to the message. -/
inductive Msg where
  | text (msg : Option CString)
  | binary (msg : Option (ℕ → UInt8)) (msglen : ℕ) (h : msglen < 2 ^ 32 - 1)

/-- What the environment reports while an item is built: `time(NULL)` and `gettid()`. -/
structure Env where
  time : Int32
  tid : Int32

/-- The fields of `loge_item_t` that do not depend on the strings. -/
def fillHeader (env : Env) (loge : LogeT) (o : Out) (level line : Int32) : Out :=
  ((((((((o.store 0 1).store 1 0x4c).store 2 0xaf).store 3 level.toInt8.toUInt8).storeLE 4 4
    env.time.toUInt32.toNat).storeLE 8 4 loge.pid.toUInt32.toNat).storeLE 12 4
    env.tid.toUInt32.toNat).storeLE 16 4 line.toUInt32.toNat).store 26 (.ofNat sizeofItem)
    |>.store 27 0

/-- Pack name, tags and file behind the header and set the four offsets. -/
def packNames (loge : LogeT) (o : Out) (tags file : Option CString) : Out × ℕ :=
  let extra := sizeofItem
  let o := o.store 20 0
  let o := o.copy extra (fun i => loge.name.toList.getD i 0) (loge.nameLen + 1)
  let p := extra + (loge.nameLen + 1)
  let o := o.store 21 (.ofNat (p - extra))
  let (o, p) := writeStr o p (extra + 255) tags
  let o := o.store 22 (.ofNat (p - extra))
  let (o, p) := writeStr o p (extra + 255) (shortenPath file)
  (o.store 23 (.ofNat (p - extra)), p)

/-- Set `msg_len` from the stored `msg_offset` and the final pointer, and return the item's size. -/
def finishItem (o : Out) (p : ℕ) : Out × ℕ :=
  (o.storeLE 24 2 ((p - (sizeofItem + (o.byte 23).toNat : ℕ) - 1 : ℤ) % 2 ^ 16).toNat, p)

/-- `loge_item_bin` -/
def logeItemBin (env : Env) (loge : LogeT) (buf : ℕ → UInt8) (bufsize : ℕ) (level : Int32)
    (tags : Option CString) (msg : Msg) (file : Option CString) (line : Int32) : Out × ℕ :=
  let o : Out := ⟨⟨buf, []⟩, []⟩
  let extraEnd := min bufsize maxBuf
  if loge.enabled = 0 then (o, 0)
  else
    let (o, p) := packNames loge (fillHeader env loge o level line) tags file
    match msg with
    | .text msg =>
      let (o, p) := writeStr o p extraEnd msg
      finishItem o p
    | .binary msg msglen _ =>
      match writeBin o p extraEnd msg msglen with
      | (o, none) => (o, 0)
      | (o, some p) => finishItem o p

/-- `loge_item` -/
def logeItem (env : Env) (loge : LogeT) (buf : ℕ → UInt8) (bufsize : ℕ) (level : Int32)
    (tags msg file : Option CString) (line : Int32) : Out × ℕ :=
  logeItemBin env loge buf bufsize level tags (.text msg) file line

/-! ## Reading an item -/

/-- The contents of a received item, read as `loge_item_t` documents. -/
structure Item where
  version : UInt8
  magic1 : UInt8
  magic2 : UInt8
  level : Int8
  time : Int32
  pid : Int32
  tid : Int32
  line : Int32
  nameOffset : ℕ
  tagsOffset : ℕ
  fileOffset : ℕ
  msgOffset : ℕ
  msgLen : ℕ
  extraOffset : ℕ
  flags : UInt8
  name : List UInt8
  tags : List UInt8
  file : List UInt8
  msg : List UInt8
deriving DecidableEq

/-- Read a little-endian `int32_t`. -/
def readInt32 (byte : ℕ → UInt8) (i : ℕ) : Int32 :=
  (UInt32.ofNat (Bytes.readLE byte i 4)).toInt32

/-- Read the item in the first `size` bytes, as the receiver does; `none` when a string is not
terminated inside them. -/
def readItem (byte : ℕ → UInt8) (size : ℕ) : Option Item := do
  let extra := (byte 26).toNat
  let str (off : ℕ) := Bytes.cstr? byte (extra + off) (size - (extra + off))
  let name ← str (byte 20).toNat
  let tags ← str (byte 21).toNat
  let file ← str (byte 22).toNat
  let msg ← str (byte 23).toNat
  return {
    version := byte 0, magic1 := byte 1, magic2 := byte 2, level := (byte 3).toInt8
    time := readInt32 byte 4, pid := readInt32 byte 8, tid := readInt32 byte 12
    line := readInt32 byte 16
    nameOffset := (byte 20).toNat, tagsOffset := (byte 21).toNat, fileOffset := (byte 22).toNat
    msgOffset := (byte 23).toNat, msgLen := Bytes.readLE byte 24 2, extraOffset := extra
    flags := byte 27, name := name, tags := tags, file := file, msg := msg }

end Uvx.Loge
