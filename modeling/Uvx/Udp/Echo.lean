import Uvx.Common.Decimal
import Uvx.Common.Dialogue
import Uvx.Udp.Defs

/-!
# Echoing numbers: `test/udp-echo.c`

Processes that answer every number with the next one, over a network that may lose, repeat and
reorder datagrams. What they say to each other is a dialogue about `Message`s (`Agree`), so that every
datagram is a number that somebody has counted up to, one answer after another (`echo_run`). Printing
and `sleep` are left out.
-/

namespace Uvx.Udp

open Net

/-! ## The functions -/

/-- `isspace` -/
def isSpace (c : UInt8) : Bool := c = 32 ∨ (9 ≤ c.toNat ∧ c.toNat ≤ 13)

/-- The number at the front of a text, which has to end with a character that is no digit. -/
def atoiDigits (text : List UInt8) : Option ℕ :=
  let digits := text.takeWhile fun c => decide (Decimal.IsDigit c)
  if digits.length < text.length then some (Decimal.toNat digits) else none

/-- `atoi`, which must not get past the end of the text, nor to a number that is no `int`. -/
def atoi (text : List UInt8) : Option ℤ :=
  let text := text.dropWhile isSpace
  let x : Option ℤ :=
    if text.head? = some 45 then (atoiDigits text.tail).map fun n => -(n : ℤ)
    else if text.head? = some 43 then (atoiDigits text.tail).map Nat.cast
    else (atoiDigits text).map Nat.cast
  x.filter fun x => -2 ^ 31 ≤ x ∧ x < 2 ^ 31

/-- `on_recv`, where `uv_udp_send` returns `status`. The sum `x + 1` must not overflow, and `newdata`
has 16 bytes. -/
def onRecv (xudp : Send.Ptr) (addr : SockAddr) (status : ℤ) (data : List UInt8) (s : Send.State) :
    Option Send.State := do
  let x ← atoi data
  guard (x + 1 < 2 ^ 31)
  let newdata := Decimal.ofInt (x + 1) ++ [0]
  guard (newdata.length ≤ 16)
  pure (Send.uvxUdpSendToAddr xudp addr newdata status s).1

/-! ## The system -/

structure Datagram where
  src : SockAddr
  dst : SockAddr
  data : List UInt8

/-- A process: its socket, and the address from which it sends. -/
structure Process where
  xudp : Send.Ptr
  addr : SockAddr

/-- The memory of the processes, and the network. -/
structure Sys (ι : Type) where
  nodes : ι → Send.State
  network : Channel Datagram
  /-- A process has done something undefined. -/
  undefined : Bool

inductive Action (ι : Type)
  /-- A process with a `target_ip` sends its first message. -/
  | start (i : ι) (targetIp : List UInt8) (status : ℤ)
  /-- The network takes datagram number `k` to a process. -/
  | deliver (i : ι) (k : ℕ) (status : ℤ)

variable {ι : Type} [DecidableEq ι]

/-- A process has reached the state `s'`. What it has passed to `uv_udp_send` is sent if libuv has
accepted it. -/
def Sys.advance (ps : ι → Process) (s : Sys ι) (i : ι) (s' : Send.State) (status : ℤ) : Sys ι :=
  { s with
    nodes := Function.update s.nodes i s'
    network :=
      if status = 0 then
        s.network.send ((s'.datagrams.drop (s.nodes i).datagrams.length).map fun d =>
          ⟨(ps i).addr, d.1, d.2⟩)
      else s.network }

/-- What an action does. The first message is `"1"` with its terminator. -/
def Action.handle (uv : AddrParser) (ps : ι → Process) : Action ι → Sys ι → Sys ι
  | .start i targetIp status, s =>
    s.advance ps i (uvxUdpSendToIp uv (ps i).xudp targetIp 8008 [49, 0] status (s.nodes i)).1 status
  | .deliver i k status, s =>
    let s := { s with network := s.network.deliver k }
    match s.network.sent[k]? with
    | some d =>
      let onRecv := fun data (s : Option Send.State) =>
        s.bind (Udp.onRecv (ps i).xudp d.src status data)
      match uvxOnUdpRecv (some onRecv) d.data.length d.data (some (s.nodes i)) with
      | some s' => s.advance ps i s' status
      | none => { s with undefined := true }
    | none => s

/-- A datagram gets to the process to which it was sent. -/
def Action.Enabled (ps : ι → Process) (s : Sys ι) : Action ι → Prop
  | .start .. => True
  | .deliver i k _ => ∃ d, s.network.sent[k]? = some d ∧ d.dst = (ps i).addr

def Sys.Step (uv : AddrParser) (ps : ι → Process) (s : Sys ι) (a : Action ι) (s' : Sys ι) : Prop :=
  a.Enabled ps s ∧ s' = a.handle uv ps s

structure Sys.Initial (s : Sys ι) : Prop where
  network : s.network = .empty
  undefined : s.undefined = false

/-! ## What the processes say -/

/-- A number said to somebody. -/
structure Message where
  src : SockAddr
  dst : SockAddr
  number : ℕ

namespace Message

def reply (m : Message) : Message := ⟨m.dst, m.src, m.number + 1⟩

/-- The message as it is sent. -/
def wire (m : Message) : Datagram := ⟨m.src, m.dst, Decimal.ofNat m.number ++ [0]⟩

/-- The message that follows from `m` after `n` answers. -/
def nth (m : Message) (n : ℕ) : Message :=
  if n % 2 = 0 then { m with number := m.number + n } else ⟨m.dst, m.src, m.number + n⟩

theorem iterate_reply (m : Message) (n : ℕ) : reply^[n] m = m.nth n := by
  induction n with
  | zero => rfl
  | succ n ih =>
    rw [Function.iterate_succ_apply', ih, nth, nth]
    rcases Nat.mod_two_eq_zero_or_one n with hn | hn
    · rw [if_pos hn, if_neg (by omega)]
      rfl
    · rw [if_neg (by omega), if_pos (by omega)]
      rfl

theorem number_nth (m : Message) (n : ℕ) : (m.nth n).number = m.number + n := by
  rw [nth]
  split <;> rfl

end Message

/-- The first messages that libuv has accepted. -/
def begun (uv : AddrParser) (ps : ι → Process) (as : List (Action ι)) : List Message :=
  as.filterMap fun
    | .start i targetIp status =>
      if status = 0 then some ⟨(ps i).addr, (uv.parse targetIp 8008).2, 1⟩ else none
    | .deliver .. => none

/-! ## Numbers -/

theorem takeWhile_digits {l : List UInt8} (h : ∀ c ∈ l, Decimal.IsDigit c) :
    (l ++ [0]).takeWhile (fun c => decide (Decimal.IsDigit c)) = l := by
  rw [List.takeWhile_append_of_pos fun c hc => decide_eq_true (h c hc)]
  exact List.append_nil l

theorem atoiDigits_ofNat (n : ℕ) : atoiDigits (Decimal.ofNat n ++ [0]) = some n := by
  rw [atoiDigits, takeWhile_digits fun c hc => Decimal.isDigit_of_mem_ofNat hc, List.length_append,
    if_pos (by simp), Decimal.toNat_ofNat]

/-- A number that has been sent is read back. -/
theorem atoi_ofNat {n : ℕ} (hn : n < 2 ^ 31) : atoi (Decimal.ofNat n ++ [0]) = some (n : ℤ) := by
  obtain ⟨c, l, hcl⟩ := List.exists_cons_of_ne_nil (Decimal.ofNat_ne_nil n)
  have hdigit : Decimal.IsDigit c := Decimal.isDigit_of_mem_ofNat (hcl ▸ List.mem_cons_self)
  have hne : ∀ d : UInt8, ¬ Decimal.IsDigit d → c ≠ d := fun d hd he => hd (he ▸ hdigit)
  have hspace : ¬ isSpace c = true := by
    rw [isSpace, decide_eq_true_iff]
    rintro (rfl | hc)
    · exact absurd hdigit (by decide)
    · have := hdigit.1
      omega
  have hdrop : (Decimal.ofNat n ++ [0]).dropWhile isSpace = Decimal.ofNat n ++ [0] := by
    rw [hcl, List.cons_append, List.dropWhile_cons_of_neg hspace]
  have hhead : (Decimal.ofNat n ++ [0]).head? = some c := by
    rw [hcl]
    rfl
  rw [atoi, hdrop, hhead, if_neg fun he => hne 45 (by decide) (Option.some_inj.mp he),
    if_neg fun he => hne 43 (by decide) (Option.some_inj.mp he), atoiDigits_ofNat]
  refine Option.filter_eq_some_iff.mpr ⟨rfl, decide_eq_true ?_⟩
  omega

/-- The answer to a number is the next one, as long as this is an `int`. -/
theorem onRecv_ofNat {n : ℕ} (hn : n + 1 < 2 ^ 31) (xudp : Send.Ptr) (addr : SockAddr) (status : ℤ)
    (s : Send.State) : onRecv xudp addr status (Decimal.ofNat n ++ [0]) s
      = some (Send.uvxUdpSendToAddr xudp addr (Decimal.ofNat (n + 1) ++ [0]) status s).1 := by
  have hnext : Decimal.ofInt ((n : ℤ) + 1) = Decimal.ofNat (n + 1) := by
    rw [Decimal.ofInt, if_neg (by omega)]
    rfl
  have hlength : (Decimal.ofNat (n + 1) ++ [0]).length ≤ 16 := by
    have := Decimal.length_ofNat_le (k := 10) (by decide) (show n + 1 < 10 ^ 10 by omega)
    rw [List.length_append, List.length_singleton]
    omega
  have hlt : (n : ℤ) + 1 < 2 ^ 31 := by omega
  have hguard : ∀ (b : Prop) [Decidable b], b → (guard b : Option Unit) = some () :=
    fun b _ hb => if_pos hb
  rw [onRecv, atoi_ofNat (Nat.lt_of_succ_lt hn), Option.bind_eq_bind, Option.bind_some,
    hguard _ hlt, hnext]
  show ((guard ((Decimal.ofNat (n + 1) ++ [0]).length ≤ 16) : Option Unit) >>= fun _ => _) = _
  rw [hguard _ hlength]
  rfl

/-! ## The processes hold a dialogue -/

/-- The system in state `s` has held the dialogue `c`. -/
structure Agree (s : Sys ι) (c : Channel Message) : Prop where
  sent : s.network.sent = c.sent.map Message.wire
  delivered : s.network.delivered = c.delivered
  undefined : s.undefined = false

/-- A process passes the message `m` to libuv. -/
theorem Agree.advance {ps : ι → Process} {s : Sys ι} {c : Channel Message} (h : Agree s c) (i : ι)
    {s' : Send.State} {m : Message} (status : ℤ) (hsrc : m.src = (ps i).addr)
    (hdatagrams : s'.datagrams = (s.nodes i).datagrams ++ [(m.dst, m.wire.data)]) :
    Agree (s.advance ps i s' status) (c.send (if status = 0 then [m] else [])) := by
  rw [Sys.advance, hdatagrams, List.drop_left]
  split_ifs with hstatus
  · refine ⟨?_, h.delivered, h.undefined⟩
    show s.network.sent ++ [⟨(ps i).addr, m.dst, m.wire.data⟩] = (c.sent ++ [m]).map Message.wire
    rw [List.map_append, h.sent, ← hsrc]
    rfl
  · refine ⟨?_, h.delivered, h.undefined⟩
    rw [Channel.send, List.append_nil]
    exact h.sent

/-- What is passed to `uv_udp_send`. -/
theorem datagrams_uvxUdpSendToAddr (xudp : Send.Ptr) (addr : SockAddr) (data : List UInt8)
    (status : ℤ) (s : Send.State) :
    (Send.uvxUdpSendToAddr xudp addr data status s).1.datagrams = s.datagrams ++ [(addr, data)] := by
  unfold Send.uvxUdpSendToAddr Send.uvUdpSend
  dsimp only
  split <;> rfl

/-- A message is heard and answered. -/
theorem Agree.deliver {uv : AddrParser} {ps : ι → Process} {s : Sys ι} {c : Channel Message}
    (h : Agree s c) {i : ι} {k : ℕ} (hk : k < c.sent.length) (hdst : c.sent[k].dst = (ps i).addr)
    (hnumber : c.sent[k].number + 1 < 2 ^ 31) (status : ℤ) :
    Agree ((Action.deliver i k status).handle uv ps s)
      (Turn.take Message.reply c (.hear k (status = 0))) := by
  set m := c.sent[k] with hm
  have hget : s.network.sent[k]? = some m.wire := by
    rw [h.sent, List.getElem?_map, List.getElem?_eq_getElem hk]
    rfl
  have hdeliver : Agree { s with network := s.network.deliver k } (c.deliver k) := by
    refine ⟨h.sent, ?_, h.undefined⟩
    show s.network.delivered ++ [k] = c.delivered ++ [k]
    rw [h.delivered]
  -- the process gets the whole datagram, and passes the answer to libuv
  have hrun : ∀ s' : Send.State, uvxOnUdpRecv
      (some fun data (s : Option Send.State) => s.bind (onRecv (ps i).xudp m.src status data))
      m.wire.data.length m.wire.data (some s')
      = some (Send.uvxUdpSendToAddr (ps i).xudp m.src m.reply.wire.data status s').1 := by
    intro s'
    have hpos : (0 : ℤ) < m.wire.data.length := by
      rw [show m.wire.data = Decimal.ofNat m.number ++ [0] from rfl, List.length_append]
      exact Int.ofNat_lt.mpr (Nat.succ_pos _)
    rw [uvxOnUdpRecv, if_pos hpos, Int.toNat_natCast, List.take_length, Option.bind_some]
    exact onRecv_ofNat hnumber ..
  have hanswer : Turn.take Message.reply c (.hear k (status = 0))
      = (c.deliver k).send (if status = 0 then [m.reply] else []) := by
    rw [Turn.take, Turn.answer_of_lt hk]
    simp only [decide_eq_true_eq]
    rfl
  have hhandle : (Action.deliver i k status).handle uv ps s
      = Sys.advance ps { s with network := s.network.deliver k } i
        (Send.uvxUdpSendToAddr (ps i).xudp m.src m.reply.wire.data status (s.nodes i)).1 status := by
    unfold Action.handle
    dsimp only [Channel.deliver]
    rw [hget]
    dsimp only
    rw [show (m.wire).src = m.src from rfl, hrun (s.nodes i)]
  rw [hanswer, hhandle]
  exact hdeliver.advance i status hdst (datagrams_uvxUdpSendToAddr ..)

omit [DecidableEq ι] in
/-- What has arrived is what has been heard. -/
theorem Agree.received {s : Sys ι} {c : Channel Message} (h : Agree s c) :
    s.network.received = c.received.map Message.wire := by
  rw [Channel.received, Channel.received, h.delivered, h.sent, List.map_filterMap]
  simp only [List.getElem?_map]

omit [DecidableEq ι] in
theorem number_of_mem_begun {uv : AddrParser} {ps : ι → Process} {as : List (Action ι)}
    {m : Message} (hm : m ∈ begun uv ps as) : m.number = 1 := by
  obtain ⟨a, -, ha⟩ := List.mem_filterMap.mp hm
  cases a with
  | start i targetIp status =>
    dsimp only at ha
    split_ifs at ha
    obtain rfl := Option.some_inj.mp ha
    rfl
  | deliver i k status => cases ha

omit [DecidableEq ι] in
theorem begun_concat (uv : AddrParser) (ps : ι → Process) (as : List (Action ι)) (a : Action ι) :
    begun uv ps (as ++ [a]) = begun uv ps as ++ begun uv ps [a] :=
  List.filterMap_append

omit [DecidableEq ι] in
theorem begun_start (uv : AddrParser) (ps : ι → Process) (i : ι) (targetIp : List UInt8)
    (status : ℤ) : begun uv ps [.start i targetIp status]
      = if status = 0 then [⟨(ps i).addr, (uv.parse targetIp 8008).2, 1⟩] else [] := by
  by_cases hstatus : status = 0
  · simp [begun, hstatus]
  · simp [begun, hstatus]

/-! ## Runs -/

variable {uv : AddrParser} {ps : ι → Process} {s₀ s : Sys ι} {as : List (Action ι)}

/-- **Every run** is a dialogue, as long as the numbers stay below `INT_MAX`. -/
theorem exec_dialogue (h₀ : s₀.Initial) (hrun : Exec (Sys.Step uv ps) s₀ as s)
    (hlen : as.length + 1 < 2 ^ 31) :
    ∃ ts c, Exec (Turn.Step Message.reply) .empty ts c ∧ Turn.said ts = begun uv ps as ∧
      Agree s c := by
  suffices hinv : as.length + 1 < 2 ^ 31 → ∃ ts c, Exec (Turn.Step Message.reply) .empty ts c ∧
      Turn.said ts = begun uv ps as ∧ Agree s c ∧ c.delivered.length ≤ as.length by
    obtain ⟨ts, c, hexec, hsaid, hagree, -⟩ := hinv hlen
    exact ⟨ts, c, hexec, hsaid, hagree⟩
  refine hrun.invariant_actions (I := fun as s => as.length + 1 < 2 ^ 31 →
    ∃ ts c, Exec (Turn.Step Message.reply) .empty ts c ∧ Turn.said ts = begun uv ps as ∧ Agree s c ∧
      c.delivered.length ≤ as.length) ?_ ?_
  · refine fun _ => ⟨[], .empty, .nil, rfl, ⟨?_, ?_, h₀.undefined⟩, Nat.zero_le _⟩
    · rw [h₀.network]
      rfl
    · rw [h₀.network]
      rfl
  · rintro as s a s' ih ⟨henabled, rfl⟩ hlen
    rw [List.length_append, List.length_singleton] at hlen ⊢
    obtain ⟨ts, c, hexec, hsaid, hagree, hle⟩ := ih (by omega)
    rw [begun_concat, ← hsaid]
    cases a with
    | start i targetIp status =>
      set m : Message := ⟨(ps i).addr, (uv.parse targetIp 8008).2, 1⟩ with hm
      have hsend : Agree ((Action.start i targetIp status).handle uv ps s)
          (c.send (if status = 0 then [m] else [])) :=
        hagree.advance i status rfl (datagrams_uvxUdpSendToAddr ..)
      rw [begun_start, ← hm]
      split_ifs at hsend ⊢ with hstatus
      · have hturn : Turn.Step Message.reply c (.say m) (c.send [m]) := ⟨trivial, rfl⟩
        exact ⟨_, _, hexec.snoc hturn, Turn.said_say ts m, hsend, hle.trans (Nat.le_succ _)⟩
      · refine ⟨ts, c.send [], ?_, (List.append_nil _).symm, hsend, hle.trans (Nat.le_succ _)⟩
        rw [Channel.send, List.append_nil]
        exact hexec
    | deliver i k status =>
      obtain ⟨d, hd, hdst⟩ := henabled
      rw [hagree.sent, List.getElem?_map, Option.map_eq_some_iff] at hd
      obtain ⟨m, hm, rfl⟩ := hd
      obtain ⟨hk, rfl⟩ := List.getElem?_eq_some_iff.mp hm
      obtain ⟨m₀, hm₀, n, hn⟩ := (Turn.exists_iterate hexec).2 _ (List.getElem_mem hk)
      have hnumber : c.sent[k].number + 1 < 2 ^ 31 := by
        have hone := number_of_mem_begun (hsaid ▸ hm₀)
        have hcount := hn.le_length
        rw [hn.eq_iterate, Message.iterate_reply, Message.number_nth, hone]
        omega
      have hturn : Turn.Step Message.reply c (.hear k (status = 0)) _ := ⟨hk, rfl⟩
      refine ⟨_, _, hexec.snoc hturn, ?_, hagree.deliver hk hdst hnumber status, ?_⟩
      · rw [Turn.said_hear]
        exact (List.append_nil _).symm
      · show (c.delivered ++ [k]).length ≤ _
        rw [List.length_append, List.length_singleton]
        omega

/-- **Counting together.** Every datagram is a number that follows, one answer after another, from a
first message, and what it follows from has arrived. Nothing undefined is done. After one first message
and without repetition the numbers are sent and arrive one by one, and at most one is on its way. -/
theorem echo_run (h₀ : s₀.Initial) (hrun : Exec (Sys.Step uv ps) s₀ as s)
    (hlen : as.length + 1 < 2 ^ 31) :
    s.undefined = false ∧
      (∀ d ∈ s.network.sent, ∃ m ∈ begun uv ps as, ∃ n, d = (m.nth n).wire ∧
        ∀ i < n, (m.nth i).wire ∈ s.network.received) ∧
      ∀ m, begun uv ps as = [m] → s.network.delivered.Nodup →
        s.network.sent = (List.range s.network.sent.length).map (fun n => (m.nth n).wire) ∧
        s.network.delivered = List.range s.network.delivered.length ∧
        s.network.sent.length ≤ s.network.delivered.length + 1 := by
  obtain ⟨ts, c, hexec, hsaid, hagree⟩ := exec_dialogue h₀ hrun hlen
  refine ⟨hagree.undefined, ?_, ?_⟩
  · rw [hagree.sent, hagree.received]
    intro d hd
    obtain ⟨b, hb, rfl⟩ := List.mem_map.mp hd
    obtain ⟨m, hm, n, hn⟩ := (Turn.exists_iterate hexec).2 b hb
    refine ⟨m, hsaid ▸ hm, n, by rw [hn.eq_iterate, Message.iterate_reply], fun i hi => ?_⟩
    rw [← Message.iterate_reply]
    exact List.mem_map_of_mem (hn.arrived i hi)
  · intro m hm hnodup
    have horder := Turn.inOrder hexec (hsaid.trans hm) (hagree.delivered ▸ hnodup)
    rw [hagree.sent, hagree.delivered, List.length_map]
    refine ⟨?_, horder.delivered_eq, horder.length_le⟩
    conv_lhs => rw [horder.sent_eq, List.map_map]
    refine List.map_congr_left ?_
    intro n _
    rw [Function.comp_apply, Message.iterate_reply]

/-- The two processes of the comment in the source. -/
def twoProcesses (first : Bool) : Process :=
  ⟨0, ⟨false, loopback, if first then 8008 else 50000⟩⟩

def quietSys : Sys Bool := ⟨fun _ => .init, .empty, false⟩

/-- One number and its answer. -/
theorem echo_run_two : ∃ s, Exec (Sys.Step plainParser twoProcesses) quietSys
      [.start false loopback 0, .deliver true 0 0, .deliver false 1 0] s ∧
    s.undefined = false ∧ s.network.sent = (List.range s.network.sent.length).map fun n =>
      (Message.nth ⟨(twoProcesses false).addr, (twoProcesses true).addr, 1⟩ n).wire := by
  have hexec : ∃ s, Exec (Sys.Step plainParser twoProcesses) quietSys
      [.start false loopback 0, .deliver true 0 0, .deliver false 1 0] s ∧
      s.network.delivered = [0, 1] :=
    ⟨_, .snoc (.snoc (.snoc .nil ⟨trivial, rfl⟩) ⟨⟨_, rfl, rfl⟩, rfl⟩) ⟨⟨_, rfl, rfl⟩, rfl⟩, rfl⟩
  obtain ⟨s, hexec, hdelivered⟩ := hexec
  obtain ⟨hundefined, -, horder⟩ := echo_run ⟨rfl, rfl⟩ hexec (by decide)
  refine ⟨s, hexec, hundefined, (horder _ rfl ?_).1⟩
  rw [hdelivered]
  decide

end Uvx.Udp
