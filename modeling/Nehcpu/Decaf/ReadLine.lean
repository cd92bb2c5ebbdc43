-- `_ReadLine` and `_ReadInteger` of `intrinsic.c`: the line editor, what it leaves in its buffer, and
-- what it returns.
import Mathlib.Logic.Function.Basic
import Nehcpu.Cpu.Defines

open Function

namespace nehcpu.decaf

open cpu

abbrev Byte := BitVec 8

abbrev BUFSIZE : Nat := 4096

/-! ## The code -/

/-- What `read` gives behind the last byte: 0, or a negative number. -/
inductive Ending
  | eof
  | error
deriving DecidableEq

/-- The local variable `i` and the memory, by its distance from `buffer`. `bufPtr` stays at
`buffer`. The last part is what `cprintf` showed of the line. -/
structure Edit where
  i : Nat
  mem : Int → Byte
  echo : List Byte

/-- `bufPtr[o] = c`. A store outside the buffer ends the model. -/
def Edit.store (s : Edit) (o : Nat) (c : Byte) : Option Edit :=
  if o < BUFSIZE then some { s with mem := update s.mem o c } else none

def Edit.show (s : Edit) (c : Byte) : Edit := { s with echo := s.echo ++ [c] }

/-- `c >= ' '`, for a `char` with a sign. -/
def printable (c : Byte) : Bool := (32#8).sle c

/-- The end of the loop by `break`: the zero and the pointer, by its distance from `buffer`. -/
def Edit.finish (s : Edit) : Option (Edit × Option Int) :=
  (s.store s.i 0#8).map fun s => (s, some (0 - s.i - 1))

/-- The loop of `_ReadLine` on the bytes that `read` gives. -/
def Edit.loop (s : Edit) : List Byte → Ending → Option (Edit × Option Int)
  | [], .error => some (s, none)
  | [], .eof => if 0 < s.i then s.finish else some (s, none)
  | c :: rest, ending =>
    if c = 3#8 then some (s, none)
    else if printable c ∧ s.i < BUFSIZE - 1 then
      match (s.show c).store s.i c with
      | none => none
      | some s => Edit.loop { s with i := s.i + 1 } rest ending
    else if c = 8#8 ∧ 0 < s.i then
      Edit.loop { s.show c with i := s.i - 1 } rest ending
    else if c = 10#8 ∨ c = 13#8 then (s.show c).finish
    else Edit.loop s rest ending

/-- The memory and the pointer that is returned, `none` for NULL. -/
def _ReadLine (mem : Int → Byte) (bytes : List Byte) (ending : Ending) :
    Option (Edit × Option Int) :=
  Edit.loop ⟨0, mem, []⟩ bytes ending

/-- The loop of `_ReadInteger`, for as many turns as are given. -/
def readDigits (mem : Int → Byte) : Nat → Int → Word → Option Word
  | 0, _, _ => none
  | turns + 1, str, rst =>
    if mem str = 0#8 then some rst
    else readDigits mem turns (str + 1)
      (rst <<< 3 + rst <<< 1 + ((mem str).signExtend 32 - 48#32))

/-- There is no number where `_ReadLine` returns NULL. -/
def _ReadInteger (turns : Nat) (mem : Int → Byte) (bytes : List Byte) (ending : Ending) :
    Option Word :=
  match _ReadLine mem bytes ending with
  | some (s, some str) => readDigits s.mem turns str 0#32
  | _ => none

/-! ## What is typed -/

/-- The line with one more byte typed: a printable byte is kept while there is room, and a
backspace removes the last one that was kept. -/
def keep (kept : List Byte) (c : Byte) : List Byte :=
  if printable c then
    if kept.length < BUFSIZE - 1 then kept ++ [c] else kept
  else if c = 8#8 then kept.dropLast
  else kept

/-- A byte that ends the line: control-C, newline or carriage return. -/
def endsLine (c : Byte) : Bool := c = 3#8 ∨ c = 10#8 ∨ c = 13#8

/-- What is kept of the bytes up to the one that ends the line, after what was kept before. -/
def typedAfter (kept : List Byte) (bytes : List Byte) : List Byte :=
  (bytes.takeWhile fun c => !endsLine c).foldl keep kept

def typed (bytes : List Byte) : List Byte := typedAfter [] bytes

/-- The line ends without a result: by an error, by control-C, or at the end of input with nothing
kept. -/
def NoLine (kept bytes : List Byte) (ending : Ending) : Prop :=
  match (bytes.dropWhile fun c => !endsLine c).head? with
  | some c => c = 3#8
  | none => ending = .error ∨ typedAfter kept bytes = []

instance (kept bytes : List Byte) (ending : Ending) : Decidable (NoLine kept bytes ending) := by
  unfold NoLine
  split <;> infer_instance

/-- The bytes stand in the memory from `p` on. -/
def BytesAt (mem : Int → Byte) (p : Int) (bs : List Byte) : Prop :=
  ∀ k (h : k < bs.length), mem (p + k) = bs[k]

/-- They are followed by a zero. -/
structure StringAt (mem : Int → Byte) (p : Int) (bs : List Byte) : Prop where
  bytes : BytesAt mem p bs
  ends : mem (p + bs.length) = 0#8

/-! ## Editing -/

theorem keep_length {kept : List Byte} (h : kept.length < BUFSIZE) (c : Byte) :
    (keep kept c).length < BUFSIZE := by
  unfold keep
  split
  · split
    · rw [List.length_append, List.length_singleton]
      omega
    · exact h
  · split
    · rw [List.length_dropLast]
      omega
    · exact h

theorem typedAfter_length {kept : List Byte} (h : kept.length < BUFSIZE) (bytes : List Byte) :
    (typedAfter kept bytes).length < BUFSIZE := by
  unfold typedAfter
  generalize bytes.takeWhile (fun c => !endsLine c) = line
  induction line generalizing kept with
  | nil => exact h
  | cons c line ih => exact ih (keep_length h c)

section

variable (kept : List Byte) (ending : Ending)

@[simp] theorem typedAfter_nil : typedAfter kept [] = kept := rfl

theorem typedAfter_cons {c : Byte} (h : endsLine c = false) (rest : List Byte) :
    typedAfter kept (c :: rest) = typedAfter (keep kept c) rest := by
  simp [typedAfter, h]

theorem typedAfter_end {c : Byte} (h : endsLine c = true) (rest : List Byte) :
    typedAfter kept (c :: rest) = kept := by
  simp [typedAfter, h]

theorem noLine_cons {c : Byte} (h : endsLine c = false) (rest : List Byte) :
    NoLine kept (c :: rest) ending ↔ NoLine (keep kept c) rest ending := by
  simp [NoLine, h, typedAfter_cons]

theorem noLine_end {c : Byte} (h : endsLine c = true) (rest : List Byte) :
    NoLine kept (c :: rest) ending ↔ c = 3#8 := by
  simp [NoLine, h]

theorem BytesAt.congr {mem mem' : Int → Byte} {p : Int} {bs : List Byte} (h : BytesAt mem p bs)
    (hm : ∀ k < bs.length, mem' (p + k) = mem (p + k)) : BytesAt mem' p bs := by
  intro k hk
  rw [hm k hk]
  exact h k hk

theorem BytesAt.concat {mem : Int → Byte} {p : Int} {bs : List Byte} (h : BytesAt mem p bs) (c : Byte) :
    BytesAt (update mem (p + bs.length) c) p (bs ++ [c]) := by
  intro k hk
  rw [List.length_append, List.length_singleton] at hk
  by_cases hlt : k < bs.length
  · rw [update_of_ne (by omega), List.getElem_append_left hlt]
    exact h k hlt
  · obtain rfl : k = bs.length := by omega
    simp

theorem BytesAt.dropLast {mem : Int → Byte} {p : Int} {bs : List Byte} (h : BytesAt mem p bs) :
    BytesAt mem p bs.dropLast := by
  intro k hk
  rw [List.getElem_dropLast]
  exact h k _

end

/-! ## The loop -/

/-- The loop ended as it should, but for the pointer: nothing outside the buffer was stored, NULL comes
back only without a line, and otherwise the buffer holds the line. -/
structure Ended (mem : Int → Byte) (kept bytes : List Byte) (ending : Ending) (s : Edit)
    (res : Option Int) : Prop where
  outside : ∀ o : Int, o < 0 ∨ BUFSIZE ≤ o → s.mem o = mem o
  null : NoLine kept bytes ending → res = none
  line : ¬ NoLine kept bytes ending →
    res = some (-((typedAfter kept bytes).length : Int) - 1) ∧ StringAt s.mem 0 (typedAfter kept bytes)

section

variable {kept bytes rest : List Byte} {ending : Ending} {s s' : Edit} {res : Option Int}
  {mem : Int → Byte} {c : Byte}

theorem Edit.store_inside {o : Nat} (h : o < BUFSIZE) :
    s.store o c = some { s with mem := update s.mem o c } := if_pos h

/-- A break leaves the line that was kept. -/
theorem Edit.finish_ends (hi : s.i = kept.length) (hlen : kept.length < BUFSIZE)
    (hk : BytesAt s.mem 0 kept) (hline : ¬ NoLine kept bytes ending)
    (htyped : typedAfter kept bytes = kept) :
    ∃ s' res, s.finish = some (s', res) ∧ Ended s.mem kept bytes ending s' res := by
  have hstore : s.store s.i 0#8 = some { s with mem := update s.mem s.i 0#8 } :=
    Edit.store_inside (by omega)
  refine ⟨{ s with mem := update s.mem s.i 0#8 }, some (0 - s.i - 1), ?_, ?_, ?_, ?_⟩
  · simp only [Edit.finish, hstore, Option.map_some]
  · intro o ho
    show update s.mem s.i 0#8 o = s.mem o
    rw [update_of_ne (by omega)]
  · intro hno
    exact absurd hno hline
  · intro _
    rw [htyped]
    refine ⟨?_, ?_, ?_⟩
    · rw [hi, Int.zero_sub]
    · apply hk.congr
      intro k hklt
      show update s.mem s.i 0#8 (0 + k) = s.mem (0 + k)
      rw [update_of_ne (by omega)]
    · show update s.mem s.i 0#8 (0 + kept.length) = 0#8
      rw [hi, Int.zero_add, update_self]

/-- The rest of the line, after a byte that does not end it. -/
theorem Ended.of_rest (hc : endsLine c = false)
    (hmem : ∀ o : Int, o < 0 ∨ BUFSIZE ≤ o → s.mem o = mem o)
    (h : Ended s.mem (keep kept c) rest ending s' res) :
    Ended mem kept (c :: rest) ending s' res := by
  refine ⟨?_, ?_, ?_⟩
  · intro o ho
    rw [h.outside o ho, hmem o ho]
  · intro hno
    exact h.null ((noLine_cons kept ending hc rest).mp hno)
  · intro hno
    rw [typedAfter_cons kept hc]
    exact h.line fun hr => hno ((noLine_cons kept ending hc rest).mpr hr)

theorem endsLine_of_printable (h : printable c = true) :
    endsLine c = false ∧ c ≠ 3#8 ∧ c ≠ 8#8 ∧ c ≠ 10#8 ∧ c ≠ 13#8 := by
  revert h c
  decide

end

/-- The loop, from any line that is kept so far. -/
theorem loop_ends (bytes : List Byte) (ending : Ending) (kept : List Byte) (s : Edit)
    (hi : s.i = kept.length) (hlen : kept.length < BUFSIZE) (hk : BytesAt s.mem 0 kept) :
    ∃ s' res, s.loop bytes ending = some (s', res) ∧ Ended s.mem kept bytes ending s' res := by
  induction bytes generalizing kept s with
  | nil =>
    have hnull (hno : NoLine kept [] ending) :
        Ended s.mem kept [] ending s none :=
      ⟨fun _ _ => rfl, fun _ => rfl, fun hn => absurd hno hn⟩
    cases ending with
    | error =>
      have hno : NoLine kept [] .error := Or.inl rfl
      exact ⟨s, none, rfl, hnull hno⟩
    | eof =>
      by_cases hpos : 0 < s.i
      · have hline : ¬ NoLine kept [] .eof := by
          rintro (h | h)
          · cases h
          · rw [typedAfter_nil] at h
            rw [h] at hi
            exact absurd hpos (by simp [hi])
        simp only [Edit.loop, if_pos hpos]
        exact Edit.finish_ends hi hlen hk hline rfl
      · have hnil : kept = [] := List.eq_nil_of_length_eq_zero (by omega)
        have hno : NoLine kept [] .eof := Or.inr hnil
        refine ⟨s, none, ?_, hnull hno⟩
        simp only [Edit.loop, if_neg hpos]
  | cons c rest ih =>
    unfold Edit.loop
    by_cases h3 : c = 3#8
    · have hend : endsLine c = true := by simp [endsLine, h3]
      have hno : NoLine kept (c :: rest) ending := (noLine_end kept ending hend rest).mpr h3
      rw [if_pos h3]
      exact ⟨s, none, rfl, fun _ _ => rfl, fun _ => rfl, fun hn => absurd hno hn⟩
    rw [if_neg h3]
    by_cases hp : printable c = true
    · obtain ⟨hend, -, h8, h10, h13⟩ := endsLine_of_printable hp
      by_cases hroom : s.i < BUFSIZE - 1
      · -- the byte is kept
        have hkeep : keep kept c = kept ++ [c] := by
          simp only [keep, if_pos hp, if_pos (hi ▸ hroom)]
        have hmem : BytesAt (update s.mem s.i c) 0 (kept ++ [c]) := by
          have h := hk.concat c
          rw [Int.zero_add] at h
          rw [hi]
          exact h
        rw [if_pos ⟨hp, hroom⟩, Edit.store_inside (by omega)]
        obtain ⟨s', res, hloop, hended⟩ := ih (keep kept c)
          { i := s.i + 1, mem := update s.mem s.i c, echo := s.echo ++ [c] }
          (by simp [hkeep, hi]) (keep_length hlen c) (by rw [hkeep]; exact hmem)
        refine ⟨s', res, hloop, hended.of_rest hend ?_⟩
        intro o ho
        show update s.mem s.i c o = s.mem o
        rw [update_of_ne (by omega)]
      · -- the buffer is full
        have hkeep : keep kept c = kept := by
          simp only [keep, if_pos hp, if_neg (hi ▸ hroom)]
        rw [if_neg (fun h => hroom h.2), if_neg (fun h => h8 h.1), if_neg (by simp [h10, h13])]
        obtain ⟨s', res, hloop, hended⟩ := ih (keep kept c) s (by rw [hkeep, hi])
          (keep_length hlen c) (by rw [hkeep]; exact hk)
        exact ⟨s', res, hloop, hended.of_rest hend fun _ _ => rfl⟩
    · rw [if_neg (fun h => hp h.1)]
      by_cases h8 : c = 8#8
      · have hend : endsLine c = false := by simp [endsLine, h8]
        have hkeep : keep kept c = kept.dropLast := by
          simp only [keep, if_neg hp, if_pos h8]
        have hmem : BytesAt s.mem 0 (keep kept c) := by
          rw [hkeep]
          exact hk.dropLast
        by_cases hpos : 0 < s.i
        · rw [if_pos ⟨h8, hpos⟩]
          obtain ⟨s', res, hloop, hended⟩ := ih (keep kept c) { s.show c with i := s.i - 1 }
            (by simp [hkeep, hi]) (keep_length hlen c) hmem
          exact ⟨s', res, hloop, hended.of_rest hend fun _ _ => rfl⟩
        · -- nothing is left to remove
          rw [if_neg (fun h => hpos h.2), if_neg (by simp [h8])]
          obtain ⟨s', res, hloop, hended⟩ := ih (keep kept c) s
            (by rw [hkeep, List.length_dropLast]; omega) (keep_length hlen c) hmem
          exact ⟨s', res, hloop, hended.of_rest hend fun _ _ => rfl⟩
      · rw [if_neg (fun h => h8 h.1)]
        by_cases hnl : c = 10#8 ∨ c = 13#8
        · have hend : endsLine c = true := by
            rcases hnl with h | h <;> simp [endsLine, h]
          have hline : ¬ NoLine kept (c :: rest) ending := by
            rw [noLine_end kept ending hend]
            exact h3
          rw [if_pos hnl]
          exact Edit.finish_ends (s := s.show c) hi hlen hk hline (typedAfter_end kept hend rest)
        · have hend : endsLine c = false := by
            simp only [not_or] at hnl
            simp [endsLine, h3, hnl]
          have hkeep : keep kept c = kept := by
            simp only [keep, if_neg hp, if_neg h8]
          rw [if_neg hnl]
          obtain ⟨s', res, hloop, hended⟩ := ih (keep kept c) s (by rw [hkeep, hi])
            (keep_length hlen c) (by rw [hkeep]; exact hk)
          exact ⟨s', res, hloop, hended.of_rest hend fun _ _ => rfl⟩

/-- A call of `_ReadLine`, whatever the buffer still holds of earlier lines. -/
theorem readLine_ends (mem : Int → Byte) (bytes : List Byte) (ending : Ending) :
    ∃ s res, _ReadLine mem bytes ending = some (s, res) ∧ Ended mem [] bytes ending s res := by
  apply loop_ends bytes ending [] ⟨0, mem, []⟩ rfl (by decide)
  intro k hk
  cases hk

/-! ## The number -/

def isDigit (c : Byte) : Bool := 48#8 ≤ c ∧ c ≤ 57#8

/-- The digits as a number to the base ten, after the digits of `n`. -/
def decimalAfter (n : Nat) (digits : List Byte) : Nat :=
  digits.foldl (fun n c => 10 * n + (c.toNat - 48)) n

def decimal (digits : List Byte) : Nat := decimalAfter 0 digits

theorem digit_value {c : Byte} (h : isDigit c = true) :
    c ≠ 0#8 ∧ c.signExtend 32 - 48#32 = BitVec.ofNat 32 (c.toNat - 48) := by
  revert h c
  decide

/-- The two shifts make ten times the number. -/
theorem ten_times (n : Nat) (d : Word) :
    (BitVec.ofNat 32 n) <<< 3 + (BitVec.ofNat 32 n) <<< 1 + d = BitVec.ofNat 32 (10 * n) + d := by
  congr 1
  apply BitVec.eq_of_toNat_eq
  simp only [BitVec.toNat_add, BitVec.toNat_shiftLeft, BitVec.toNat_ofNat, Nat.shiftLeft_eq]
  omega

/-- On a string of digits the loop gives their number, modulo `2 ^ 32`. -/
theorem readDigits_decimal {mem : Int → Byte} {digits : List Byte} {p : Int}
    (hd : ∀ c ∈ digits, isDigit c = true) (h : StringAt mem p digits) (n : Nat) :
    readDigits mem (digits.length + 1) p (BitVec.ofNat 32 n) =
      some (BitVec.ofNat 32 (decimalAfter n digits)) := by
  induction digits generalizing p n with
  | nil =>
    have hz : mem p = 0#8 := by simpa using h.ends
    simp [readDigits, hz, decimalAfter]
  | cons c digits ih =>
    have hc := h.bytes 0 (by simp)
    simp only [List.getElem_cons_zero, Int.natCast_zero, Int.add_zero] at hc
    obtain ⟨hne, hval⟩ := digit_value (hd c List.mem_cons_self)
    have hrest : StringAt mem (p + 1) digits := by
      constructor
      · intro k hk
        have hk' := h.bytes (k + 1) (by simp [hk])
        rw [List.getElem_cons_succ] at hk'
        rw [← hk']
        congr 1
        omega
      · have he := h.ends
        rw [List.length_cons] at he
        rw [← he]
        congr 1
        omega
    have hturn := ih (fun d hdm => hd d (List.mem_cons_of_mem c hdm)) hrest (10 * n + (c.toNat - 48))
    rw [BitVec.ofNat_add] at hturn
    rw [List.length_cons, readDigits, hc, if_neg hne, ten_times, hval]
    exact hturn

/-- Read from the start of the buffer, a line of digits is its number. -/
theorem number_in_buffer {mem : Int → Byte} {bytes : List Byte} {ending : Ending} {s : Edit}
    {res : Option Int} (h : Ended mem [] bytes ending s res) (hline : ¬ NoLine [] bytes ending)
    (hd : ∀ c ∈ typed bytes, isDigit c = true) :
    readDigits s.mem ((typed bytes).length + 1) 0 0#32 =
      some (BitVec.ofNat 32 (decimal (typed bytes))) :=
  readDigits_decimal hd (h.line hline).2 0

/-! ## What is returned -/

/-- What a call should do: nothing outside the buffer is stored, NULL comes back only without a
line, otherwise a pointer to the line as a string inside the buffer, and a line of digits is read as
its number. -/
structure ReadsRight (mem : Int → Byte) (bytes : List Byte) (ending : Ending) : Prop where
  line : ∃ s res, _ReadLine mem bytes ending = some (s, res) ∧
    (∀ o : Int, o < 0 ∨ BUFSIZE ≤ o → s.mem o = mem o) ∧
    (res = none → NoLine [] bytes ending) ∧
    (∀ p, res = some p → 0 ≤ p ∧ p + (typed bytes).length < BUFSIZE ∧ StringAt s.mem p (typed bytes))
  number : ¬ NoLine [] bytes ending → (∀ c ∈ typed bytes, isDigit c = true) →
    decimal (typed bytes) < 2 ^ 31 →
    ∃ turns, _ReadInteger turns mem bytes ending = some (BitVec.ofNat 32 (decimal (typed bytes)))

/-- The pointer that comes back is in front of the buffer, so a call is right only where there is no
line. -/
theorem readsRight_iff (mem : Int → Byte) (bytes : List Byte) (ending : Ending) :
    ReadsRight mem bytes ending ↔ NoLine [] bytes ending := by
  obtain ⟨s, res, hrun, hended⟩ := readLine_ends mem bytes ending
  constructor
  · intro h
    by_contra hno
    obtain ⟨hres, -⟩ := hended.line hno
    obtain ⟨s', res', hrun', -, -, hptr⟩ := h.line
    rw [hrun] at hrun'
    obtain ⟨rfl, rfl⟩ := Prod.mk.inj (Option.some_inj.mp hrun')
    have hpos := (hptr _ hres).1
    omega
  · intro hno
    have hres := hended.null hno
    refine ⟨⟨s, res, hrun, hended.outside, fun _ => hno, ?_⟩, fun hn => absurd hno hn⟩
    intro p hp
    rw [hres] at hp
    cases hp

/-- The line `a` is returned at two places in front of the buffer. -/
theorem not_readsRight : ¬ ∀ mem bytes ending, ReadsRight mem bytes ending := by
  intro h
  obtain ⟨s, res, hrun, hended⟩ := readLine_ends (fun _ => 0#8) [97#8, 10#8] .eof
  have hline : ¬ NoLine [] [97#8, 10#8] .eof := by decide
  obtain ⟨s', res', hrun', -, -, hptr⟩ := (h (fun _ => 0#8) [97#8, 10#8] .eof).line
  rw [hrun] at hrun'
  obtain ⟨rfl, rfl⟩ := Prod.mk.inj (Option.some_inj.mp hrun')
  have hpos := (hptr _ (hended.line hline).1).1
  omega

end nehcpu.decaf
