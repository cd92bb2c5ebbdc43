-- The serial line of `uart_async.v`: a transmitter that ticks once a bit, a receiver that ticks
-- eight times a bit in a phase of its own, and every byte that goes in at one end comes out at the
-- other.
import Mathlib.Tactic.IntervalCases
import Nehcpu.Cpu.Uart

namespace nehcpu.cpu.uart

open machine
open Transmitter (state3_lt)

/-! ## The tick generator -/

section

def ClkFrequency : Nat := 50000000

def Baud : Nat := 115200

/-- The loop of `log2`. -/
def log2Loop (v : Nat) : Nat → Nat → Nat
  | 0, k => k
  | fuel + 1, k => if v >>> k ≠ 0 then log2Loop v fuel (k + 1) else k

/-- For an `integer` of 32 bits. -/
def log2 (v : Nat) : Nat := log2Loop v 32 0

def AccWidth : Nat := log2 (ClkFrequency / Baud) + 8

def ShiftLimiter (Oversampling : Nat) : Nat := log2 ((Baud * Oversampling) >>> (31 - AccWidth))

def Inc (Oversampling : Nat) : Nat :=
  ((Baud * Oversampling) <<< (AccWidth - ShiftLimiter Oversampling) +
    ClkFrequency >>> (ShiftLimiter Oversampling + 1)) / ClkFrequency >>> ShiftLimiter Oversampling

theorem AccWidth_eq : AccWidth = 17 := by decide

theorem Inc_one : Inc 1 = 302 := by decide

theorem Inc_eight : Inc 8 = 2416 := by decide

/-- The register `Acc[AccWidth:0]` of a `BaudTickGen`. -/
abbrev Acc := BitVec 18

def Acc.tick (a : Acc) : Bool := a.msb

def Acc.next (a : Acc) (Oversampling : Nat) (enable : Bool) : Acc :=
  if enable then (a.extractLsb' 0 17).setWidth 18 + BitVec.ofNat 18 (Inc Oversampling)
  else BitVec.ofNat 18 (Inc Oversampling)

end

/-! ## The two ends -/

/-- The line: the start bit, the data and the stop bits put together. -/
def Transmitter.TxD (t : Transmitter) : Bool :=
  decide (t.TxD_state < 4#4) || getElem t.TxD_state 3 state3_lt && t.TxD_shift.getLsbD 0

/-- The state of `uart_async_receiver` but for its tick generator. -/
structure Receiver where
  RxD_state : BitVec 4
  RxD_sync : BitVec 2
  Filter_cnt : BitVec 2
  RxD_bit : Bool
  OversamplingCnt : BitVec 3
  RxD_data : Byte
deriving DecidableEq, Repr

namespace Receiver

/-- What the registers hold when the board is switched on. -/
def initial : Receiver := ⟨0b0000#4, 0b11#2, 0b11#2, true, 0#3, 0#8⟩

def sampleNow (r : Receiver) (OversamplingTick : Bool) : Bool :=
  OversamplingTick && r.OversamplingCnt == 3#3

def RxD_data_ready (r : Receiver) (OversamplingTick : Bool) : Bool :=
  r.sampleNow OversamplingTick && r.RxD_state == 0b0010#4 && r.RxD_bit

/-- The state that a sample leads to, and the one where none is waited for. -/
def after (RxD_state : BitVec 4) : BitVec 4 :=
  if RxD_state = 0b0001#4 then 0b1000#4
  else if RxD_state = 0b1000#4 then 0b1001#4
  else if RxD_state = 0b1001#4 then 0b1010#4
  else if RxD_state = 0b1010#4 then 0b1011#4
  else if RxD_state = 0b1011#4 then 0b1100#4
  else if RxD_state = 0b1100#4 then 0b1101#4
  else if RxD_state = 0b1101#4 then 0b1110#4
  else if RxD_state = 0b1110#4 then 0b1111#4
  else if RxD_state = 0b1111#4 then 0b0010#4
  else 0b0000#4

/-- The states that wait for a sample: those of the `case` but for the first. -/
def waits (RxD_state : BitVec 4) : Bool :=
  RxD_state == 0b0001#4 || getElem RxD_state 3 state3_lt || RxD_state == 0b0010#4

def next (r : Receiver) (rst RxD OversamplingTick : Bool) : Receiver where
  RxD_sync :=
    if rst then 0b11#2
    else if OversamplingTick then r.RxD_sync.extractLsb' 0 1 ++ BitVec.ofBool RxD
    else r.RxD_sync
  Filter_cnt :=
    if rst then 0b11#2
    else if OversamplingTick then
      if r.RxD_sync.msb && r.Filter_cnt != 0b11#2 then r.Filter_cnt + 1
      else if !r.RxD_sync.msb && r.Filter_cnt != 0b00#2 then r.Filter_cnt - 1
      else r.Filter_cnt
    else r.Filter_cnt
  RxD_bit :=
    if rst then r.RxD_bit
    else if OversamplingTick then
      if r.Filter_cnt = 0b11#2 then true
      else if r.Filter_cnt = 0b00#2 then false
      else r.RxD_bit
    else r.RxD_bit
  OversamplingCnt :=
    if rst then 0#3
    else if OversamplingTick then
      if r.RxD_state = 0b0000#4 then 0#3 else r.OversamplingCnt + 1
    else r.OversamplingCnt
  RxD_state :=
    if rst then 0b0000#4
    else if r.RxD_state = 0b0000#4 then if !r.RxD_bit then 0b0001#4 else r.RxD_state
    else if waits r.RxD_state then
      if r.sampleNow OversamplingTick then after r.RxD_state else r.RxD_state
    else 0b0000#4
  RxD_data :=
    if rst then 0#8
    else if r.sampleNow OversamplingTick && getElem r.RxD_state 3 state3_lt then
      BitVec.ofBool r.RxD_bit ++ r.RxD_data.extractLsb' 1 7
    else r.RxD_data

end Receiver

/-! ## The link -/

/-- Both ends with their tick generators. -/
structure Link where
  txd : Transmitter
  txAcc : Acc
  rxd : Receiver
  rxAcc : Acc
deriving DecidableEq, Repr

structure LinkIn where
  TxD_start : Bool
  TxD_data : Byte
deriving DecidableEq, Repr

namespace Link

/-- Switched on, with the receiver's tick generator in any phase. -/
def initial (rxAcc : Acc) : Link := ⟨⟨0b0000#4, 0#8⟩, 0#18, .initial, rxAcc⟩

def step (s : Link) (i : LinkIn) : Link where
  txd := s.txd.next i.TxD_start i.TxD_data s.txAcc.tick
  txAcc := s.txAcc.next 1 (s.txd.TxD_busy i.TxD_start)
  rxd := s.rxd.next false s.txd.TxD s.rxAcc.tick
  rxAcc := s.rxAcc.next 8 true

/-- The byte that the transmitter takes over. -/
def sent (s : Link) (i : LinkIn) : List Byte :=
  if s.txd.TxD_ready && i.TxD_start then [i.TxD_data] else []

/-- The byte that the receiver shows as ready. -/
def received (s : Link) (_ : LinkIn) : List Byte :=
  if s.rxd.RxD_data_ready s.rxAcc.tick then [s.rxd.RxD_data] else []

end Link

/-! ## One tick -/

/-- The receiver's registers that filter the line. -/
structure Pipe where
  RxD_sync : BitVec 2
  Filter_cnt : BitVec 2
  RxD_bit : Bool
deriving DecidableEq, Repr

/-- What a tick makes of them. -/
def Pipe.tick (RxD : Bool) (p : Pipe) : Pipe where
  RxD_sync := p.RxD_sync.extractLsb' 0 1 ++ BitVec.ofBool RxD
  Filter_cnt :=
    if p.RxD_sync.msb && p.Filter_cnt != 0b11#2 then p.Filter_cnt + 1
    else if !p.RxD_sync.msb && p.Filter_cnt != 0b00#2 then p.Filter_cnt - 1
    else p.Filter_cnt
  RxD_bit :=
    if p.Filter_cnt = 0b11#2 then true
    else if p.Filter_cnt = 0b00#2 then false
    else p.RxD_bit

/-- The line has been `b` for long. -/
def Pipe.settled (b : Bool) : Pipe :=
  ⟨if b then 0b11#2 else 0b00#2, if b then 0b11#2 else 0b00#2, b⟩

/-- Two bits after a change of the line the filter still holds the bit before. -/
theorem Pipe.tick_bit (b b' : Bool) {n : Nat} (hn : n ≤ 5) :
    ((Pipe.tick b')^[n] (settled b)).RxD_bit = b := by
  interval_cases n <;> cases b <;> cases b' <;> rfl

/-- After six bits it has come to the new one. -/
theorem Pipe.tick_settled (b b' : Bool) {n : Nat} (hn : 6 ≤ n) :
    (Pipe.tick b')^[n] (settled b) = settled b' := by
  obtain ⟨k, rfl⟩ := Nat.exists_eq_add_of_le' hn
  have hsix : (Pipe.tick b')^[6] (settled b) = settled b' := by
    cases b <;> cases b' <;> rfl
  have hfix : Pipe.tick b' (settled b') = settled b' := by
    cases b' <;> rfl
  rw [Function.iterate_add_apply, hsix, Function.iterate_fixed hfix]

/-- A receiver, by its parts. -/
def Pipe.receiver (p : Pipe) (OversamplingCnt : BitVec 3) (RxD_state : BitVec 4) (RxD_data : Byte) :
    Receiver := ⟨RxD_state, p.RxD_sync, p.Filter_cnt, p.RxD_bit, OversamplingCnt, RxD_data⟩

namespace Receiver

variable {b : Bool} {p : Pipe} {c : BitVec 3} {st : BitVec 4} {d : Byte} {log : List Byte}

/-- The shift of `RxD_data`. -/
def shiftIn (bit : Bool) (d : Byte) : Byte := BitVec.ofBool bit ++ d.extractLsb' 1 7

/-- An edge without a tick. -/
def still (r : Receiver) : Receiver := r.next false true false

theorem next_still (r : Receiver) (RxD : Bool) : r.next false RxD false = r.still := rfl

theorem still_receiver : (p.receiver c st d).still =
    p.receiver c (if st = 0b0000#4 then if !p.RxD_bit then 0b0001#4 else st
      else if waits st then st else 0b0000#4) d := rfl

theorem next_tick : (p.receiver c st d).next false b true =
    (p.tick b).receiver (if st = 0b0000#4 then 0#3 else c + 1)
      (if st = 0b0000#4 then if !p.RxD_bit then 0b0001#4 else st
        else if waits st then if c == 3#3 then after st else st else 0b0000#4)
      (if c == 3#3 && getElem st 3 state3_lt then shiftIn p.RxD_bit d else d) := rfl

theorem waits_ne (hw : waits st) : st ≠ 0b0000#4 := by
  rintro rfl
  cases hw

theorem still_waits (hw : waits st) : (p.receiver c st d).still = p.receiver c st d := by
  rw [still_receiver, if_neg (waits_ne hw), if_pos hw]

/-- The states of the `case`. -/
def Known (r : Receiver) : Prop := r.RxD_state = 0b0000#4 ∨ waits r.RxD_state

theorem known_after (st : BitVec 4) : after st = 0b0000#4 ∨ waits (after st) := by
  revert st
  decide

theorem Known.next {r : Receiver} (hr : r.Known) (RxD tick : Bool) :
    (r.next false RxD tick).Known := by
  unfold Known Receiver.next at *
  simp only [Bool.false_eq_true, if_false]
  rcases hr with h0 | hw
  · rw [if_pos h0]
    split
    · exact .inr rfl
    · exact .inl h0
  · rw [if_neg (waits_ne hw), if_pos hw]
    split
    · exact known_after _
    · exact .inr hw

theorem Known.still_still {r : Receiver} (hr : r.Known) : r.still.still = r.still := by
  obtain ⟨st, sync, cnt, bit, c, d⟩ := r
  have hpipe (st : BitVec 4) :
      (⟨st, sync, cnt, bit, c, d⟩ : Receiver) = (Pipe.mk sync cnt bit).receiver c st d := rfl
  rw [hpipe]
  rcases hr with h0 | hw
  · obtain rfl : st = 0b0000#4 := h0
    cases bit <;> rfl
  · have hw : waits st := hw
    rw [still_waits hw, still_waits hw]

/-- A tick and what goes on until the next one, with the bytes that are shown as ready. -/
def turn (RxD : Bool) (x : Receiver × List Byte) : Receiver × List Byte :=
  ((x.1.next false RxD true).still,
    x.2 ++ if x.1.RxD_data_ready true then [x.1.RxD_data] else [])

theorem turn_receiver : turn b (p.receiver c st d, log) =
    (((p.receiver c st d).next false b true).still,
      log ++ if c == 3#3 && st == 0b0010#4 && p.RxD_bit then [d] else []) := rfl

theorem turn_wait (hw : waits st) (hc : c ≠ 3#3) :
    turn b (p.receiver c st d, log) = ((p.tick b).receiver (c + 1) st d, log) := by
  have hst := waits_ne hw
  rw [turn_receiver, next_tick]
  simp [hst, hw, hc, still_waits hw]

theorem turn_sample (hw : waits st) (hnext : waits (after st)) :
    turn b (p.receiver 3#3 st d, log) =
      ((p.tick b).receiver 4#3 (after st)
        (if getElem st 3 state3_lt then shiftIn p.RxD_bit d else d), log) := by
  have hst := waits_ne hw
  have hstop : st ≠ 0b0010#4 := by
    rintro rfl
    cases hnext
  rw [turn_receiver, next_tick]
  simp [hst, hw, hstop, still_waits hnext]

theorem turn_stop (hp : p.RxD_bit = true) (hb : (p.tick b).RxD_bit = true) :
    turn b (p.receiver 3#3 0b0010#4 d, log) = ((p.tick b).receiver 4#3 0b0000#4 d, log ++ [d]) := by
  rw [turn_receiver, next_tick]
  simp [still_receiver, waits, after, hp, hb]

theorem turn_idle (hp : p.RxD_bit = true) :
    turn b (p.receiver c 0b0000#4 d, log) =
      ((p.tick b).receiver 0#3 (if (p.tick b).RxD_bit then 0b0000#4 else 0b0001#4) d, log) := by
  rw [turn_receiver, next_tick]
  cases hb : (p.tick b).RxD_bit <;> simp [still_receiver, hp, hb]

/-! ## One bit of the line -/

theorem turns_wait {k n : Nat} (hw : waits st) (hk : ∀ i < n, (k + i) % 8 ≠ 3) :
    (turn b)^[n] (p.receiver (.ofNat 3 k) st d, log) =
      (((Pipe.tick b)^[n] p).receiver (.ofNat 3 (k + n)) st d, log) := by
  induction n with
  | zero => rfl
  | succ n ih =>
    have hne : BitVec.ofNat 3 (k + n) ≠ 3#3 := by
      intro he
      have hmod := congrArg BitVec.toNat he
      exact hk n (Nat.lt_succ_self n) (by simpa using hmod)
    have hone : BitVec.ofNat 3 (k + n) + 1 = .ofNat 3 (k + (n + 1)) :=
      (BitVec.ofNat_add (k + n) 1).symm
    rw [Function.iterate_succ_apply', ih fun i hi => hk i (Nat.lt_succ_of_lt hi),
      turn_wait hw hne, hone, Function.iterate_succ_apply']

theorem turns_idle {n : Nat} (hbit : ∀ i ≤ n, ((Pipe.tick b)^[i] p).RxD_bit = true) :
    (turn b)^[n] (p.receiver 0#3 0b0000#4 d, log) =
      (((Pipe.tick b)^[n] p).receiver 0#3 0b0000#4 d, log) := by
  induction n with
  | zero => rfl
  | succ n ih =>
    have hlast := hbit (n + 1) (Nat.le_refl _)
    rw [Function.iterate_succ_apply'] at hlast ⊢
    rw [ih fun i hi => hbit i (Nat.le_succ_of_le hi), turn_idle (hbit n (Nat.le_succ n)), hlast,
      Function.iterate_succ_apply', if_pos rfl]

/-- Where no byte is on the line. -/
def idle (d : Byte) : Receiver := (Pipe.settled true).receiver 0#3 0b0000#4 d

theorem turns_line (n : Nat) : (turn true)^[n] (idle d, log) = (idle d, log) := by
  have hfix : Pipe.tick true (.settled true) = .settled true := rfl
  have hiter (i : Nat) : (Pipe.tick true)^[i] (.settled true) = .settled true :=
    Function.iterate_fixed hfix i
  rw [idle, turns_idle fun i _ => by rw [hiter]; rfl, hiter]

/-- A start bit. Its end may come a tick early or late, which `c` counts from the middle of it. -/
theorem turns_start {c : Nat} (hc : 1 ≤ c) (hc' : c ≤ 3) :
    (turn false)^[6 + c] (idle d, log) =
      ((Pipe.settled false).receiver (.ofNat 3 c) 0b0001#4 d, log) := by
  have hfive (i : Nat) (hi : i ≤ 5) : ((Pipe.tick false)^[i] (.settled true)).RxD_bit = true :=
    Pipe.tick_bit true false hi
  have hsix : turn false (((Pipe.tick false)^[5] (.settled true)).receiver 0#3 0b0000#4 d, log) =
      ((Pipe.settled false).receiver (.ofNat 3 0) 0b0001#4 d, log) := turn_idle rfl
  have hfix : (Pipe.tick false)^[c] (.settled false) = .settled false :=
    Function.iterate_fixed rfl c
  rw [Nat.add_comm, Function.iterate_add_apply, Function.iterate_succ_apply', idle,
    turns_idle hfive, hsix, turns_wait rfl (by omega), hfix, Nat.zero_add]

/-- A bit of the line while the receiver waits for a sample: it takes the bit before. -/
theorem turns_bit {bit : Bool} {c c' : Nat} (hw : waits st) (hnext : waits (after st))
    (hc : 1 ≤ c ∧ c ≤ 3) (hc' : 1 ≤ c' ∧ c' ≤ 3) :
    (turn b)^[8 + c' - c] ((Pipe.settled bit).receiver (.ofNat 3 c) st d, log) =
      ((Pipe.settled b).receiver (.ofNat 3 c') (after st)
        (if getElem st 3 state3_lt then shiftIn bit d else d), log) := by
  have hcut : 8 + c' - c = (4 + c') + (1 + (3 - c)) := by omega
  have hthree : c + (3 - c) = 3 := by omega
  have hbit := Pipe.tick_bit bit b (show 3 - c ≤ 5 by omega)
  have hend := Pipe.tick_settled bit b (show 6 ≤ (4 + c') + (1 + (3 - c)) by omega)
  have hwrap : BitVec.ofNat 3 (4 + (4 + c')) = .ofNat 3 c' := by
    rw [← Nat.add_assoc, BitVec.ofNat_add]
    simp
  have hfour : (4#3 : BitVec 3) = .ofNat 3 4 := rfl
  rw [Function.iterate_add_apply _ (4 + c'), Function.iterate_add_apply _ 1] at hend
  rw [hcut, Function.iterate_add_apply _ (4 + c'), Function.iterate_add_apply _ 1,
    turns_wait hw (by omega), hthree, Function.iterate_one, turn_sample hw hnext, hbit, hfour,
    turns_wait hnext (by omega), hwrap]
  exact congrArg (fun p : Pipe => (p.receiver _ _ _, log)) hend

/-- The last stop bit, in which the receiver takes the one before and shows the byte. -/
theorem turns_stop {c c' : Nat} (hc : 1 ≤ c ∧ c ≤ 3) (hc' : 1 ≤ c' ∧ c' ≤ 3) :
    (turn true)^[8 + c' - c] ((Pipe.settled true).receiver (.ofNat 3 c) 0b0010#4 d, log) =
      (idle d, log ++ [d]) := by
  have hcut : 8 + c' - c = (3 + c') + (1 + (1 + (3 - c))) := by omega
  have hthree : c + (3 - c) = 3 := by omega
  have hfix (i : Nat) : (Pipe.tick true)^[i] (.settled true) = .settled true :=
    Function.iterate_fixed rfl i
  have hidle : turn true ((Pipe.settled true).receiver 4#3 0b0000#4 d, log ++ [d]) =
      (idle d, log ++ [d]) := turn_idle rfl
  rw [hcut, Function.iterate_add_apply _ (3 + c'), Function.iterate_add_apply _ 1,
    Function.iterate_add_apply _ 1, turns_wait rfl (by omega), hthree, hfix,
    Function.iterate_one, turn_stop rfl rfl]
  exact (congrArg _ hidle).trans (turns_line _)

end Receiver

/-! ## A byte on the line -/

-- The bits of a byte are counted from the start bit: 1 to 8 are the data, 9 and 10 the stop bits.

def lineBit (byte : Byte) : Nat → Bool
  | 0 => false
  | j + 1 => if j < 8 then byte.getLsbD j else true

def txStates : List (BitVec 4) :=
  [0b0100#4, 0b1000#4, 0b1001#4, 0b1010#4, 0b1011#4, 0b1100#4, 0b1101#4, 0b1110#4, 0b1111#4,
    0b0010#4, 0b0011#4]

/-- The transmitter in the bit `j`. -/
def txAt (byte : Byte) (j : Nat) : Transmitter :=
  ⟨txStates.getD j 0b0000#4, byte >>> min (j - 1) 8⟩

theorem txAt_TxD (byte : Byte) {j : Nat} (hj : j ≤ 10) : (txAt byte j).TxD = lineBit byte j := by
  interval_cases j <;> simp [txAt, txStates, Transmitter.TxD, lineBit]

theorem txAt_busy (byte : Byte) {j : Nat} (hj : j ≤ 10) : (txAt byte j).TxD_ready = false := by
  interval_cases j <;> rfl

theorem txAt_stays (byte TxD_data : Byte) (TxD_start : Bool) {j : Nat} (hj : j ≤ 10) :
    (txAt byte j).next TxD_start TxD_data false = txAt byte j := by
  have hbusy := txAt_busy byte hj
  have hstate : (txAt byte j).TxD_state ≠ 0b0000#4 := by
    intro he
    rw [Transmitter.TxD_ready, he] at hbusy
    cases hbusy
  simp [Transmitter.next, hbusy, hstate]

theorem txAt_next (byte TxD_data : Byte) (TxD_start : Bool) {j : Nat} (hj : j ≤ 9) :
    (txAt byte j).next TxD_start TxD_data true = txAt byte (j + 1) := by
  interval_cases j <;>
    simp [txAt, txStates, Transmitter.next, Transmitter.after, Transmitter.TxD_ready,
      ← BitVec.shiftRight_add]

theorem txAt_last (byte TxD_data : Byte) (TxD_start : Bool) :
    ((txAt byte 10).next TxD_start TxD_data true).TxD_state = 0b0000#4 := rfl

namespace Receiver

def rxStates : List (BitVec 4) :=
  [0b0000#4, 0b0001#4, 0b1000#4, 0b1001#4, 0b1010#4, 0b1011#4, 0b1100#4, 0b1101#4, 0b1110#4,
    0b1111#4, 0b0010#4]

/-- The shift register once it has taken the first bits of the byte. -/
def shifted (byte d : Byte) : Nat → Byte
  | 0 => d
  | k + 1 => shiftIn (byte.getLsbD k) (shifted byte d k)

theorem getLsbD_shiftIn (bit : Bool) (d : Byte) {i : Nat} (hi : i < 8) :
    (shiftIn bit d).getLsbD i = if i < 7 then d.getLsbD (i + 1) else bit := by
  rw [shiftIn, BitVec.getLsbD_append]
  split
  · next h7 => simp [h7, Nat.add_comm]
  · obtain rfl : i = 7 := by omega
    simp

theorem getLsbD_shifted (byte d : Byte) {k i : Nat} (hk : k ≤ 8) (hi : i < 8) :
    (shifted byte d k).getLsbD i =
      if i + k < 8 then d.getLsbD (i + k) else byte.getLsbD (i + k - 8) := by
  induction k generalizing i with
  | zero => simp [shifted, hi]
  | succ k ih =>
    rw [shifted, getLsbD_shiftIn _ _ hi]
    split
    · next h7 =>
      rw [ih (by omega) (by omega)]
      have hsum : i + 1 + k = i + (k + 1) := by omega
      rw [hsum]
    · obtain rfl : i = 7 := by omega
      rw [if_neg (by omega)]
      congr 1
      omega

theorem shifted_eight (byte d : Byte) : shifted byte d 8 = byte := by
  refine BitVec.eq_of_getLsbD_eq fun i hi => ?_
  rw [getLsbD_shifted byte d (Nat.le_refl 8) hi, if_neg (by omega), Nat.add_sub_cancel]

/-- The receiver at the beginning of the bit `j`, where it counts `c`: it lags behind by one
bit. -/
def rxAt (byte d : Byte) (log : List Byte) (c : Nat) : Nat → Receiver × List Byte
  | 0 => (idle d, log)
  | j + 1 =>
    ((Pipe.settled (lineBit byte j)).receiver (.ofNat 3 c) (rxStates.getD (j + 1) 0b0000#4)
      (shifted byte d (j - 1)), log)

theorem turns_frame {byte d : Byte} {log : List Byte} {c c' j : Nat} (hj : j ≤ 9)
    (h0 : j = 0 → c = 2) (hc : 1 ≤ c ∧ c ≤ 3) (hc' : 1 ≤ c' ∧ c' ≤ 3) :
    (turn (lineBit byte j))^[8 + c' - c] (rxAt byte d log c j) = rxAt byte d log c' (j + 1) := by
  cases j with
  | zero =>
    obtain rfl := h0 rfl
    have hsix : 8 + c' - 2 = 6 + c' := by omega
    rw [hsix]
    exact turns_start hc'.1 hc'.2
  | succ j =>
    have hj : j ≤ 8 := Nat.le_of_succ_le_succ hj
    have hw : waits (rxStates.getD (j + 1) 0b0000#4) := by
      interval_cases j <;> rfl
    have hafter : after (rxStates.getD (j + 1) 0b0000#4) = rxStates.getD (j + 2) 0b0000#4 := by
      interval_cases j <;> rfl
    have hnext : waits (rxStates.getD (j + 2) 0b0000#4) := by
      interval_cases j <;> rfl
    rw [rxAt, turns_bit hw (hafter ▸ hnext) hc hc', hafter, rxAt]
    cases j with
    | zero => rfl
    | succ j =>
      have hj : j < 8 := hj
      have hbit : getElem (rxStates.getD (j + 2) 0b0000#4) 3 state3_lt = true := by
        interval_cases j <;> rfl
      have hline : lineBit byte (j + 1) = byte.getLsbD j := if_pos hj
      rw [hbit, if_pos rfl, hline]
      rfl

theorem turns_last {byte d : Byte} {log : List Byte} {c c' : Nat} (hc : 1 ≤ c ∧ c ≤ 3)
    (hc' : 1 ≤ c' ∧ c' ≤ 3) :
    (turn (lineBit byte 10))^[8 + c' - c] (rxAt byte d log c 10) = (idle byte, log ++ [byte]) := by
  have hline : rxAt byte d log c 10 =
      ((Pipe.settled true).receiver (.ofNat 3 c) 0b0010#4 byte, log) := by
    rw [rxAt, shifted_eight]
    rfl
  rw [hline]
  exact turns_stop hc hc'

end Receiver

/-! ## The clocks -/

/-- How often a generator ticks in this cycle. -/
def Acc.ticks (a : Acc) : Nat := if a.tick then 1 else 0

theorem Acc.tick_iff (a : Acc) : a.tick = true ↔ 131072 ≤ a.toNat := by
  rw [Acc.tick, BitVec.msb_eq_decide, decide_eq_true_eq]

theorem Acc.ticks_spec (a : Acc) : a.toNat = 131072 * a.ticks + a.toNat % 131072 ∧ a.ticks ≤ 1 := by
  have hlt := a.isLt
  have hiff := a.tick_iff
  unfold Acc.ticks
  split
  · next ht =>
    have hge := hiff.1 ht
    omega
  · next ht =>
    have hnge : ¬131072 ≤ a.toNat := fun hge => ht (hiff.2 hge)
    omega

/-- The register goes on by `Inc`, less what a tick takes away. -/
theorem Acc.next_toNat (a : Acc) {n m : Nat} (hm : Inc n = m) (hlt : m < 131072) :
    (a.next n true).toNat + 131072 * a.ticks = a.toNat + m ∧
      m ≤ (a.next n true).toNat ∧ (a.next n true).toNat < 131072 + m := by
  have hspec := a.ticks_spec
  have hnext : (a.next n true).toNat = a.toNat % 131072 + m := by
    rw [Acc.next, if_pos rfl, hm, BitVec.toNat_add, BitVec.toNat_setWidth, BitVec.extractLsb'_toNat,
      BitVec.toNat_ofNat]
    simp only [Nat.shiftRight_zero, Nat.reducePow]
    omega
  have hmod := Nat.mod_lt a.toNat (show 0 < 131072 by decide)
  omega

theorem Acc.next_rest (a : Acc) : (a.next 1 false).toNat = 302 := by
  rw [Acc.next, Inc_one]
  rfl

namespace Link

open Receiver

/-- The receiver comes to `x` before the next tick, with `log` the bytes it has shown so far. -/
structure Settles (s : Link) (log : List Byte) (x : Receiver × List Byte) : Prop where
  known : s.rxd.Known
  still : (s.rxd.still, log) = x
  tick : s.rxAcc.tick = true → (s.rxd, log) = x

/-- A tick is one turn of the receiver. -/
theorem Settles.step {s : Link} {log : List Byte} {x : Receiver × List Byte} (h : Settles s log x)
    (hacc : s.rxAcc.toNat < 131072 + 2416) (i : LinkIn) :
    Settles (s.step i) (log ++ s.received i) ((turn s.txd.TxD)^[s.rxAcc.ticks] x) := by
  cases ht : s.rxAcc.tick with
  | false =>
    have hnone : s.received i = [] := by
      simp [received, RxD_data_ready, sampleNow, ht]
    have hrxd : (s.step i).rxd = s.rxd.still := by
      rw [Link.step, ht, next_still]
    have hticks : s.rxAcc.ticks = 0 := if_neg (by simp [ht])
    rw [hnone, List.append_nil, hticks]
    refine ⟨h.known.next _ _, ?_, fun _ => ?_⟩
    · rw [hrxd, h.known.still_still]
      exact h.still
    · rw [hrxd]
      exact h.still
  | true =>
    have hticks : s.rxAcc.ticks = 1 := if_pos ht
    have hrxd : (s.step i).rxd = s.rxd.next false s.txd.TxD true := by
      rw [Link.step, ht]
    have hquiet : (s.step i).rxAcc.tick ≠ true := by
      intro hagain
      have hge := (Acc.tick_iff _).1 hagain
      have hnext := (s.rxAcc.next_toNat Inc_eight (by decide)).1
      have hrx : (s.step i).rxAcc = s.rxAcc.next 8 true := rfl
      rw [hrx] at hge
      omega
    rw [hticks, Function.iterate_one, ← h.tick ht]
    refine ⟨h.known.next _ _, ?_, fun hagain => absurd hagain hquiet⟩
    rw [hrxd, turn, received, ht]

/-- No byte is on the line, and all have been received. -/
structure Idle (s : Link) (log sent : List Byte) : Prop where
  state : s.txd.TxD_state = 0b0000#4
  txAcc : s.txAcc.toNat < 604
  rxAcc : s.rxAcc.toNat < 131072 + 2416
  settles : ∃ d, Settles s log (idle d, sent)

/-- The bit `j` of the last byte is on the line, and the receiver has seen `n` ticks in it. The two
accumulators are as far apart as they were at the start of the byte. -/
structure InByte (s : Link) (log sent : List Byte) (byte d : Byte) (done : List Byte)
    (j c n : Nat) (tx₀ rx₀ : Int) : Prop where
  txd : s.txd = txAt byte j
  bit : j ≤ 10
  count : 1 ≤ c ∧ c ≤ 3
  start : j = 0 → c = 2
  sent : sent = done ++ [byte]
  settles : Settles s log ((turn (lineBit byte j))^[n] (rxAt byte d done c j))
  txAcc : s.txAcc.toNat < 131072 + 302
  rxAcc : s.rxAcc.toNat < 131072 + 2416
  tx_start : 302 ≤ tx₀ ∧ tx₀ < 906
  rx_start : 0 ≤ rx₀ ∧ rx₀ < 131072 + 2416
  phase : 131072 * ((c : Int) - 2 + n) = 8 * (s.txAcc.toNat - tx₀) - (s.rxAcc.toNat - rx₀)

/-- What every cycle keeps. -/
def Inv (log sent : List Byte) (s : Link) : Prop :=
  Idle s log sent ∨ ∃ byte d done j c n tx₀ rx₀, InByte s log sent byte d done j c n tx₀ rx₀

theorem idle_step {s : Link} {log sent : List Byte} (h : Idle s log sent) (i : LinkIn) :
    Inv (log ++ s.received i) (sent ++ s.sent i) (s.step i) := by
  obtain ⟨hstate, htx, hrx, d, hd⟩ := h
  have hready : s.txd.TxD_ready = true := by
    rw [Transmitter.TxD_ready, hstate]
    rfl
  have hline : s.txd.TxD = true := by
    rw [Transmitter.TxD, hstate]
    rfl
  have hset := hd.step hrx i
  rw [hline, turns_line] at hset
  have hrx' := (s.rxAcc.next_toNat Inc_eight (by decide)).2
  cases hs : i.TxD_start with
  | false =>
    have hnone : s.sent i = [] := by
      simp [Link.sent, hs]
    have hacc : (s.step i).txAcc.toNat = 302 := by
      rw [Link.step, Transmitter.TxD_busy, hready, hs]
      exact Acc.next_rest s.txAcc
    rw [hnone, List.append_nil]
    refine .inl ⟨?_, by omega, hrx'.2, d, hset⟩
    simp [Link.step, Transmitter.next, hstate, hs]
  | true =>
    have hone : s.sent i = [i.TxD_data] := by
      simp [Link.sent, hready, hs]
    have hacc : (s.step i).txAcc = s.txAcc.next 1 true := by
      simp [Link.step, Transmitter.TxD_busy, hs]
    have htx' := s.txAcc.next_toNat Inc_one (by decide)
    have htxd : (s.step i).txd = txAt i.TxD_data 0 := by
      simp [Link.step, Transmitter.next, Transmitter.TxD_ready, hstate, hs, txAt, txStates]
    rw [hone]
    refine .inr ⟨i.TxD_data, d, sent, 0, 2, 0, (s.step i).txAcc.toNat, (s.step i).rxAcc.toNat,
      htxd, by decide, by decide, fun _ => rfl, rfl, hset, ?_, hrx'.2, ?_, ?_, by omega⟩
    · rw [hacc]
      exact htx'.2.2
    · have hsmall := s.txAcc.ticks_spec
      rw [hacc]
      omega
    · have hrx : (s.step i).rxAcc = s.rxAcc.next 8 true := rfl
      rw [hrx]
      omega

theorem inByte_step {s : Link} {log sent : List Byte} {byte d : Byte} {done : List Byte}
    {j c n : Nat} {tx₀ rx₀ : Int} (h : InByte s log sent byte d done j c n tx₀ rx₀) (i : LinkIn) :
    Inv (log ++ s.received i) (sent ++ s.sent i) (s.step i) := by
  obtain ⟨htxd, hj, hc, h0, hsent, hset, htx, hrx, htx₀, hrx₀, hphase⟩ := h
  have hbusy : s.txd.TxD_ready = false := htxd ▸ txAt_busy byte hj
  have hnone : s.sent i = [] := by
    simp [Link.sent, hbusy]
  have hset := hset.step hrx i
  rw [htxd, txAt_TxD byte hj, ← Function.iterate_add_apply] at hset
  have htxAcc : (s.step i).txAcc = s.txAcc.next 1 true := by
    simp [Link.step, Transmitter.TxD_busy, hbusy]
  have hrxAcc : (s.step i).rxAcc = s.rxAcc.next 8 true := rfl
  have htx' := s.txAcc.next_toNat Inc_one (by decide)
  have hrx' := s.rxAcc.next_toNat Inc_eight (by decide)
  rw [← htxAcc] at htx'
  rw [← hrxAcc] at hrx'
  rw [hnone, List.append_nil]
  cases ht : s.txAcc.tick with
  | false =>
    have hticks : s.txAcc.ticks = 0 := if_neg (by simp [ht])
    have hstay : (s.step i).txd = txAt byte j := by
      rw [Link.step, htxd, ht, txAt_stays byte i.TxD_data i.TxD_start hj]
    refine .inr ⟨byte, d, done, j, c, s.rxAcc.ticks + n, tx₀, rx₀, hstay, hj, hc, h0, hsent, hset,
      by omega, by omega, htx₀, hrx₀, ?_⟩
    push_cast
    omega
  | true =>
    have hticks : s.txAcc.ticks = 1 := if_pos ht
    -- the bit ends at most one tick early or late
    obtain ⟨c', hc', hn⟩ : ∃ c', (1 ≤ c' ∧ c' ≤ 3) ∧ s.rxAcc.ticks + n = 8 + c' - c :=
      ⟨s.rxAcc.ticks + n + c - 8, by omega, by omega⟩
    rw [hn] at hset
    by_cases hlast : j = 10
    · subst hlast
      rw [turns_last hc hc', ← hsent] at hset
      refine .inl ⟨?_, by omega, by omega, byte, hset⟩
      rw [Link.step, htxd, ht]
      exact txAt_last byte i.TxD_data i.TxD_start
    · rw [turns_frame (by omega) h0 hc hc'] at hset
      have hnext : (s.step i).txd = txAt byte (j + 1) := by
        rw [Link.step, htxd, ht, txAt_next byte i.TxD_data i.TxD_start (by omega)]
      refine .inr ⟨byte, d, done, j + 1, c', 0, tx₀, rx₀, hnext, by omega, hc', by simp, hsent,
        hset, by omega, by omega, htx₀, hrx₀, ?_⟩
      push_cast
      omega

/-! ## The theorem -/

theorem turn_log (b : Bool) (x : Receiver × List Byte) {k n : Nat} (h : k ≤ n) :
    ((turn b)^[k] x).2 <+: ((turn b)^[n] x).2 := by
  obtain ⟨m, rfl⟩ := Nat.exists_eq_add_of_le' h
  clear h
  rw [Function.iterate_add_apply]
  generalize (turn b)^[k] x = y
  induction m with
  | zero => exact List.prefix_rfl
  | succ m ih =>
    rw [Function.iterate_succ_apply']
    exact ih.trans (List.prefix_append _ _)

/-- In a byte the bytes before it have been received, and it has been or will be. -/
theorem InByte.received {s : Link} {log sent : List Byte} {byte d : Byte} {done : List Byte}
    {j c n : Nat} {tx₀ rx₀ : Int} (h : InByte s log sent byte d done j c n tx₀ rx₀) :
    done <+: log ∧ log <+: done ++ [byte] := by
  obtain ⟨htxd, hj, hc, h0, hsent, hset, htx, hrx, htx₀, hrx₀, hphase⟩ := h
  have hlog : ((turn (lineBit byte j))^[n] (rxAt byte d done c j)).2 = log := by
    rw [← hset.still]
  have hstart : (rxAt byte d done c j).2 = done := by
    cases j <;> rfl
  have hbegin := turn_log (lineBit byte j) (rxAt byte d done c j) (Nat.zero_le n)
  have hend := turn_log (lineBit byte j) (rxAt byte d done c j) (show n ≤ 8 + 3 - c by omega)
  rw [Function.iterate_zero_apply, hstart, hlog] at hbegin
  refine ⟨hbegin, ?_⟩
  rw [hlog] at hend
  by_cases hlast : j = 10
  · subst hlast
    rwa [turns_last hc (by decide)] at hend
  · rw [turns_frame (by omega) h0 hc (by decide)] at hend
    exact hend.trans (List.prefix_append done [byte])

theorem inv_step {s : Link} {log sent : List Byte} (h : Inv log sent s) (i : LinkIn) :
    Inv (log ++ s.received i) (sent ++ s.sent i) (s.step i) := by
  rcases h with h | ⟨byte, d, done, j, c, n, tx₀, rx₀, h⟩
  · exact idle_step h i
  · exact inByte_step h i

theorem inv_initial (phase : BitVec 17) : Inv [] [] (initial (phase.setWidth 18)) := by
  have hlt := phase.isLt
  have hacc : (initial (phase.setWidth 18)).rxAcc.toNat = phase.toNat := by
    simp only [initial, BitVec.toNat_setWidth]
    omega
  have hzero : (initial (phase.setWidth 18)).txAcc.toNat = 0 := rfl
  exact .inl ⟨rfl, by omega, by omega, 0#8, .inl rfl, rfl, fun _ => rfl⟩

theorem inv_run (phase : BitVec 17) (is : List LinkIn) :
    Inv (logFrom step received (initial (phase.setWidth 18)) is)
      (logFrom step sent (initial (phase.setWidth 18)) is)
      (runFrom step (initial (phase.setWidth 18)) is) :=
  @logs_related_anyRun _ _ _ step received sent Inv (fun _ _ _ i h => inv_step h i) _ is
    (inv_initial phase)

/-- Whatever bytes are sent and when, and whatever the phase of the receiver's ticks, the receiver
shows the bytes that the transmitter has taken, in their order and each of them once. At most the
last is on its way, and none when the transmitter is ready for another. -/
theorem serial_link (phase : BitVec 17) (is : List LinkIn) :
    let s := initial (phase.setWidth 18)
    let received := logFrom step received s is
    let sent := logFrom step sent s is
    received <+: sent ∧ sent.length ≤ received.length + 1 ∧
      ((runFrom step s is).txd.TxD_ready = true → received = sent) := by
  intro s received sent
  rcases inv_run phase is with h | ⟨byte, d, done, j, c, n, tx₀, rx₀, h⟩
  · obtain ⟨d, hset⟩ := h.settles
    have hlog : received = sent := congrArg Prod.snd hset.still
    exact ⟨hlog ▸ List.prefix_rfl, by rw [hlog]; exact Nat.le_succ _, fun _ => hlog⟩
  · obtain ⟨hdone, hpre⟩ := h.received
    rw [← h.sent] at hpre
    refine ⟨hpre, ?_, fun hready => ?_⟩
    · have hlen := congrArg List.length h.sent
      rw [List.length_append] at hlen
      exact hlen.trans_le (Nat.succ_le_succ hdone.length_le)
    · rw [h.txd, txAt_busy byte h.bit] at hready
      cases hready

end Link

end nehcpu.cpu.uart
