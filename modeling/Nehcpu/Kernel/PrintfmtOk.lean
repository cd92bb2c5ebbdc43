-- The numbers of `vprintfmt`: what is printed is the sign, the padding and the digits, and from it
-- the argument can be read back, where the argument has one word.
import Mathlib.Data.List.Basic
import Nehcpu.Kernel.Printfmt

namespace nehcpu.kernel.printfmt

open cpu thumips

/-! ## Digits -/

def digitByte (n : Nat) : Byte := digit (BitVec.ofNat 32 n)

/-- The digits of a number. -/
def digitsOf (base n : Nat) : List Byte :=
  if _h : 1 < base ∧ base ≤ n then digitsOf base (n / base) ++ [digitByte (n % base)]
  else [digitByte n]
termination_by n
decreasing_by exact Nat.div_lt_self (by omega) _h.1

/-- What a digit stands for. -/
def valueOf (base : Nat) (ch : Byte) : Option Nat :=
  (List.range base).find? fun d => ch = digitByte d

/-- The number that a string of digits stands for. -/
def parse (base : Nat) (ds : List Byte) : Option Nat :=
  ds.foldl (fun n ch => n.bind fun n => (valueOf base ch).map fun d => n * base + d) (some 0)

theorem parse_snoc (base : Nat) (ds : List Byte) (ch : Byte) :
    parse base (ds ++ [ch]) =
      (parse base ds).bind fun n => (valueOf base ch).map fun d => n * base + d := by
  unfold parse
  rw [List.foldl_append]
  rfl

theorem parse_single (base : Nat) (ch : Byte) : parse base [ch] = valueOf base ch := by
  show (valueOf base ch).map (fun d => 0 * base + d) = valueOf base ch
  cases valueOf base ch with
  | none => rfl
  | some d => rw [Option.map_some, Nat.zero_mul, Nat.zero_add]

theorem valueOf_some {base d : Nat} {ch : Byte} (h : valueOf base ch = some d) :
    d < base ∧ ch = digitByte d := by
  have hd := List.find?_some h
  exact ⟨List.mem_range.1 (List.mem_of_find?_eq_some h), of_decide_eq_true hd⟩

theorem digitByte_inj : ∀ m < 16, ∀ n < 16, digitByte m = digitByte n → m = n := by decide

theorem valueOf_digit {base n : Nat} (hb : base ≤ 16) (hn : n < base) :
    valueOf base (digitByte n) = some n := by
  rcases hv : valueOf base (digitByte n) with _ | d
  · unfold valueOf at hv
    rw [List.find?_eq_none] at hv
    exact absurd (decide_eq_true rfl) (hv n (List.mem_range.2 hn))
  · obtain ⟨hd, he⟩ := valueOf_some hv
    rw [digitByte_inj n (by omega) d (by omega) he]

theorem digitsOf_small {base n : Nat} (h : n < base) : digitsOf base n = [digitByte n] := by
  rw [digitsOf, dif_neg]
  rintro ⟨-, hle⟩
  omega

theorem digitsOf_large {base n : Nat} (hb : 1 < base) (h : base ≤ n) :
    digitsOf base n = digitsOf base (n / base) ++ [digitByte (n % base)] := by
  rw [digitsOf, dif_pos ⟨hb, h⟩]

theorem digitsOf_ne_nil (base n : Nat) : digitsOf base n ≠ [] := by
  rw [digitsOf]
  split
  · exact List.append_ne_nil_of_right_ne_nil _ (List.cons_ne_nil _ _)
  · exact List.cons_ne_nil _ _

section

variable {base : Nat}

theorem parse_digitsOf (hb : 1 < base) (hb' : base ≤ 16) (n : Nat) :
    parse base (digitsOf base n) = some n := by
  induction n using Nat.strong_induction_on with
  | _ n ih =>
    rcases lt_or_ge n base with hn | hn
    · rw [digitsOf_small hn, parse_single, valueOf_digit hb' hn]
    · have hlt : n % base < base := Nat.mod_lt n (by omega)
      rw [digitsOf_large hb hn, parse_snoc, ih _ (Nat.div_lt_self (by omega) hb),
        Option.bind_some, valueOf_digit hb' hlt, Option.map_some, Nat.div_add_mod']

/-- The digits of a number with no zero in front are the only ones that stand for it. -/
theorem eq_digitsOf (hb : 1 < base) {ds : List Byte} {n : Nat} (hp : parse base ds = some n)
    (hne : ds ≠ []) (hz : ds.head? = some 48#8 → ds = [48#8]) : ds = digitsOf base n := by
  induction ds using List.reverseRecOn generalizing n with
  | nil => exact absurd rfl hne
  | append_singleton ds ch ih =>
    rw [parse_snoc] at hp
    obtain ⟨m, hm, hp⟩ := Option.bind_eq_some_iff.1 hp
    obtain ⟨d, hd, rfl⟩ := Option.map_eq_some_iff.1 hp
    obtain ⟨hlt, rfl⟩ := valueOf_some hd
    rcases eq_or_ne ds [] with rfl | hds
    · obtain rfl := Option.some_inj.1 hm
      rw [Nat.zero_mul, Nat.zero_add, digitsOf_small hlt]
      rfl
    · have hhead : ds.head? ≠ some 48#8 := by
        intro h0
        have hone := hz (by rw [List.head?_append_of_ne_nil ds hds, h0])
        have hlen := congrArg List.length hone
        rw [List.length_append] at hlen
        have hpos := List.length_pos_of_ne_nil hds
        simp only [List.length_cons, List.length_nil] at hlen
        omega
      have hrest := ih hm hds fun h0 => absurd h0 hhead
      -- the digits before the last one stand for more than zero
      have hpos : 0 < m := by
        rcases Nat.eq_zero_or_pos m with rfl | hpos
        · rw [digitsOf_small (by omega)] at hrest
          rw [hrest] at hhead
          exact absurd rfl hhead
        · exact hpos
      have hge : base ≤ m * base + d :=
        le_trans (Nat.le_mul_of_pos_left base hpos) (Nat.le_add_right _ _)
      have hdiv : (m * base + d) / base = m := by
        rw [Nat.mul_comm, Nat.mul_add_div (by omega), Nat.div_eq_of_lt hlt, Nat.add_zero]
      have hmod : (m * base + d) % base = d := by
        rw [Nat.mul_comm, Nat.mul_add_mod, Nat.mod_eq_of_lt hlt]
      rw [digitsOf_large hb hge, hdiv, hmod, ← hrest]

theorem digitsOf_head (hb : 1 < base) (hb' : base ≤ 16) (n : Nat) :
    (digitsOf base n).head? = some 48#8 → digitsOf base n = [48#8] := by
  induction n using Nat.strong_induction_on with
  | _ n ih =>
    intro h
    rcases lt_or_ge n base with hn | hn
    · rw [digitsOf_small hn] at h ⊢
      rw [Option.some_inj.1 h]
    · rw [digitsOf_large hb hn, List.head?_append_of_ne_nil _ (digitsOf_ne_nil _ _)] at h
      have hone := ih _ (Nat.div_lt_self (by omega) hb) h
      have hzero := parse_digitsOf hb hb' (n / base)
      have hpos : 0 < n / base := Nat.div_pos hn (by omega)
      have h0 : parse base [48#8] = some 0 := by
        rw [parse_single]
        exact @valueOf_digit base 0 hb' (by omega)
      rw [hone, h0] at hzero
      have := Option.some_inj.1 hzero
      omega

theorem digitsOf_length (hb : 1 < base) : ∀ {k n : Nat}, 0 < k → n < base ^ k →
    (digitsOf base n).length ≤ k
  | 0, _, hk, _ => absurd hk (lt_irrefl 0)
  | k + 1, n, _, hn => by
    rcases lt_or_ge n base with hlt | hge
    · rw [digitsOf_small hlt]
      exact Nat.succ_le_succ (Nat.zero_le k)
    · have hk : 0 < k := by
        rcases Nat.eq_zero_or_pos k with rfl | hk
        · rw [Nat.zero_add, Nat.pow_one] at hn
          omega
        · exact hk
      have hdiv : n / base < base ^ k := Nat.div_lt_of_lt_mul (by rw [← Nat.pow_succ']; exact hn)
      rw [digitsOf_large hb hge, List.length_append]
      exact Nat.succ_le_succ (digitsOf_length hb hk hdiv)

end
/-! ## `printnum` -/

theorem wrap_sub (w k : Int) : wrap (wrap w - k) = wrap (w - k) := by
  unfold wrap
  exact Int.bmod_sub_bmod

theorem word_eq {a : Word} {n : Nat} (h : a.toNat = n) : a = BitVec.ofNat 32 n := by
  rw [← h, BitVec.ofNat_toNat, BitVec.setWidth_eq]

/-- What leaves the range of `int` at its lower end comes back at the upper one. -/
theorem wrap_below {n : Int} (h : -2 ^ 31 - 32 ≤ n) (h' : n < -2 ^ 31) : wrap n = n + 2 ^ 32 := by
  have hadd : wrap n = wrap (n + 2 ^ 32) := (Int.add_bmod_right n (2 ^ 32)).symm
  rw [hadd]
  exact Int.bmod_eq_of_le (by omega) (by omega)

/-- A step of `printnum` in a base that it knows. -/
theorem printnum_step {base : Word} (hb : base = 10#32 ∨ base = 16#32) (padc : Byte) (levels : Nat)
    (num : Word) (width : Int) :
    printnum base padc (levels + 1) num width =
      if base.toNat ≤ num.toNat then
        (printnum base padc levels (BitVec.ofNat 32 (num.toNat / base.toNat))
          (wrap (width - 1))).map fun out => out ++ [digitByte (num.toNat % base.toNat)]
      else some (pads width padc ++ [digitByte num.toNat]) := by
  have hn := num.isLt
  have hparts : (if base = 10#32 then (let t := divu10 num; (t, num - mulu10 t))
      else if base = 8#32 then (num >>> 3, num &&& 7#32) else (num >>> 4, num &&& 15#32)) =
        (BitVec.ofNat 32 (num.toNat / base.toNat), BitVec.ofNat 32 (num.toNat % base.toNat)) := by
    rcases hb with rfl | rfl
    · have hq := divu10_div num
      have hmul : (mulu10 (divu10 num)).toNat = 10 * (num.toNat / 10) := by
        rw [mulu10_eq, BitVec.toNat_mul, hq]
        exact Nat.mod_eq_of_lt (by show 10 * (num.toNat / 10) < 2 ^ 32; omega)
      have hmod : (num - mulu10 (divu10 num)).toNat = num.toNat % 10 := by
        rw [rest_toNat (by omega), hmul]
        omega
      rw [if_pos rfl]
      exact Prod.ext (word_eq hq) (word_eq hmod)
    · have hq : (num >>> 4).toNat = num.toNat / 16 := shift_toNat num 4
      have hmod : (num &&& 15#32).toNat = num.toNat % 16 := by
        rw [BitVec.toNat_and]
        exact Nat.and_two_pow_sub_one_eq_mod num.toNat 4
      rw [if_neg (by decide), if_neg (by decide)]
      exact Prod.ext (word_eq hq) (word_eq hmod)
  rw [printnum, hparts]
  simp only [ge_iff_le, BitVec.le_def]
  by_cases hle : base.toNat ≤ num.toNat
  · rw [if_pos hle, if_pos hle]
    rfl
  · rw [if_neg hle, if_neg hle, Nat.mod_eq_of_lt (by omega)]
    rfl

/-- `printnum` prints the digits behind their padding. -/
theorem printnum_eq {base : Word} (hb : base = 10#32 ∨ base = 16#32) (padc : Byte) (levels : Nat) :
    ∀ (num : Word) (width : Int), 0 < levels → num.toNat < base.toNat ^ levels →
      printnum base padc levels num width =
        some (List.replicate (wrap (width - (digitsOf base.toNat num.toNat).length)).toNat padc ++
          digitsOf base.toNat num.toNat) := by
  have hbase : 1 < base.toNat := by rcases hb with rfl | rfl <;> decide
  induction levels with
  | zero => exact fun _ _ h => absurd h (lt_irrefl 0)
  | succ levels ih =>
    intro num width _ hlt
    rw [printnum_step hb]
    by_cases hle : base.toNat ≤ num.toNat
    · have hn := num.isLt
      have hlevels : 0 < levels := by
        rcases Nat.eq_zero_or_pos levels with rfl | h
        · rw [Nat.zero_add, Nat.pow_one] at hlt
          omega
        · exact h
      have hdiv : num.toNat / base.toNat < base.toNat ^ levels :=
        Nat.div_lt_of_lt_mul (by rw [← Nat.pow_succ']; exact hlt)
      have hword : (BitVec.ofNat 32 (num.toNat / base.toNat)).toNat = num.toNat / base.toNat := by
        rw [BitVec.toNat_ofNat]
        exact Nat.mod_eq_of_lt (lt_of_le_of_lt (Nat.div_le_self _ _) hn)
      rw [if_pos hle, ih _ _ hlevels (by rw [hword]; exact hdiv), hword, digitsOf_large hbase hle,
        Option.map_some, List.append_assoc, wrap_sub, List.length_append]
      have hlen : width - 1 - ((digitsOf base.toNat (num.toNat / base.toNat)).length : Int) =
          width - (((digitsOf base.toNat (num.toNat / base.toNat)).length +
            [digitByte (num.toNat % base.toNat)].length : Nat) : Int) := by
        rw [List.length_singleton, Nat.cast_add, Nat.cast_one]
        omega
      rw [hlen]
    · rw [if_neg hle, digitsOf_small (by omega)]
      rfl
/-! ## The flags -/

/-- What the flags can be: `int`s, and one of three characters for the padding. -/
structure FlagsOk (st : Spec) : Prop where
  padc : st.padc = 32#8 ∨ st.padc = 45#8 ∨ st.padc = 48#8
  low : -2 ^ 31 ≤ st.width
  high : st.width < 2 ^ 31

theorem wrap_range (n : Int) : -2 ^ 31 ≤ wrap n ∧ wrap n < 2 ^ 31 :=
  ⟨Int.le_bmod (by decide), Int.bmod_lt (by decide)⟩

theorem readWidth_range (fmt : List Byte) : ∀ {precision : Int},
    -2 ^ 31 ≤ precision ∧ precision < 2 ^ 31 →
      -2 ^ 31 ≤ (readWidth precision fmt).1 ∧ (readWidth precision fmt).1 < 2 ^ 31 := by
  induction fmt with
  | nil => exact fun h => h
  | cons ch fmt ih =>
    intro precision h
    unfold readWidth
    split
    · exact h
    · exact ih (wrap_range _)

theorem FlagsOk.process_precision {st : Spec} (h : FlagsOk st) {precision : Int}
    (hp : -2 ^ 31 ≤ precision ∧ precision < 2 ^ 31) : FlagsOk (st.process_precision precision) := by
  unfold Spec.process_precision
  split
  · exact ⟨h.padc, hp.1, hp.2⟩
  · exact ⟨h.padc, h.low, h.high⟩

theorem reswitch_ok (flags : Nat) : ∀ {st st' : Spec} {fmt rest : List Byte} {ap ap' : List Arg}
    {conv : Option Byte}, FlagsOk st → reswitch flags st fmt ap = some (st', conv, rest, ap') →
      FlagsOk st' := by
  induction flags with
  | zero =>
    intro st st' fmt rest ap ap' conv _ he
    cases he
  | succ flags ih =>
    intro st st' fmt rest ap ap' conv h he
    cases fmt with
    | nil =>
      obtain rfl := (Prod.mk.inj (Option.some_inj.1 he)).1
      exact h
    | cons ch fmt =>
      rw [reswitch] at he
      split at he
      · next hch =>
        refine ih ?_ he
        exact ⟨Or.inr hch, h.low, h.high⟩
      · split at he
        · next hch =>
          refine ih (h.process_precision (readWidth_range fmt ?_)) he
          have := ch.isLt
          omega
        · split at he
          · split at he
            · cases he
            · next v ap1 hv =>
              exact ih (h.process_precision ⟨BitVec.le_toInt v, BitVec.toInt_lt⟩) he
          · split at he
            · refine ih ?_ he
              refine ⟨h.padc, ?_, ?_⟩
              · show -2 ^ 31 ≤ if st.width < 0 then 0 else st.width
                have := h.low
                split <;> omega
              · show (if st.width < 0 then 0 else st.width) < 2 ^ 31
                have := h.high
                split <;> omega
            · split at he
              · refine ih ?_ he
                exact ⟨h.padc, h.low, h.high⟩
              · split at he
                · refine ih ?_ he
                  exact ⟨h.padc, h.low, h.high⟩
                · obtain rfl := (Prod.mk.inj (Option.some_inj.1 he)).1
                  exact h

/-! ## The numbers -/

/-- A directive for a number behind its `%`: the flags, the base, the argument, and what follows. -/
inductive NumberDirective (fmt : List Byte) (ap : List Arg) :
    Spec → Word → Int → List Byte → List Arg → Prop
  | d {st rest ap' num ap''}
      (h : reswitch (fmt.length + 1) Spec.start fmt ap = some (st, some 100#8, rest, ap'))
      (ha : getint ap' st.lflag = some (num, ap'')) :
      NumberDirective fmt ap st 10#32 num.toInt rest ap''
  | x {st rest ap' num ap''}
      (h : reswitch (fmt.length + 1) Spec.start fmt ap = some (st, some 120#8, rest, ap'))
      (ha : getuint ap' st.lflag = some (num, ap'')) :
      NumberDirective fmt ap st 16#32 num.toNat rest ap''

/-- A minus where there is one, the padding up to the width, and the digits of the absolute value
with no zero in front. -/
def Prints (st : Spec) (base : Word) (value : Int) (out : List Byte) : Prop :=
  ∃ ds, out = (if value < 0 then [45#8] else []) ++
      (List.replicate (st.width - ds.length).toNat st.padc ++ ds) ∧
    parse base.toNat ds = some value.natAbs ∧ ds ≠ [] ∧ (ds.head? = some 48#8 → ds = [48#8])

/-- The value takes one word, and the width stays an `int` while the digits are taken from it. -/
def Fits (st : Spec) (base : Word) (value : Int) : Prop :=
  value.natAbs < 2 ^ 32 ∧ -2 ^ 31 ≤ st.width - (digitsOf base.toNat value.natAbs).length

section

variable {base : Nat} {padc : Byte}

theorem parse_zeros (hb : 0 < base) (hb' : base ≤ 16) (k : Nat) (ds : List Byte) :
    parse base (List.replicate k 48#8 ++ ds) = parse base ds := by
  induction ds using List.reverseRecOn with
  | nil =>
    induction k with
    | zero => rfl
    | succ k ih =>
      rw [List.append_nil] at ih ⊢
      rw [List.replicate_succ', parse_snoc, ih]
      show (valueOf base 48#8).map (fun d => 0 * base + d) = some 0
      rw [show valueOf base 48#8 = some 0 from @valueOf_digit base 0 hb' hb, Option.map_some,
        Nat.zero_mul]
  | append_singleton ds ch ih => rw [← List.append_assoc, parse_snoc, parse_snoc, ih]

/-- No digit is a blank or a minus. -/
theorem digit_ne : ∀ n < 16, digitByte n ≠ 32#8 ∧ digitByte n ≠ 45#8 := by decide

theorem mem_digitsOf (hb : 1 < base) (hb' : base ≤ 16) (n : Nat) :
    ∀ ch ∈ digitsOf base n, ch ≠ 32#8 ∧ ch ≠ 45#8 := by
  induction n using Nat.strong_induction_on with
  | _ n ih =>
    intro ch hch
    rcases lt_or_ge n base with hn | hn
    · rw [digitsOf_small hn] at hch
      obtain rfl := List.mem_singleton.1 hch
      exact digit_ne n (by omega)
    · rw [digitsOf_large hb hn, List.mem_append] at hch
      rcases hch with hch | hch
      · exact ih _ (Nat.div_lt_self (by omega) hb) ch hch
      · obtain rfl := List.mem_singleton.1 hch
        exact digit_ne _ (lt_of_lt_of_le (Nat.mod_lt n (by omega)) hb')

/-- The digits behind a padding tell the number. -/
theorem number_of_padded (hb : 1 < base) (hb' : base ≤ 16)
    (hp : padc = 32#8 ∨ padc = 45#8 ∨ padc = 48#8) {j k m n : Nat}
    (he : List.replicate j padc ++ digitsOf base m = List.replicate k padc ++ digitsOf base n) :
    m = n := by
  have hdigits : padc = 32#8 ∨ padc = 45#8 → digitsOf base m = digitsOf base n := by
    intro hpadc
    have hf := congrArg (List.filter fun ch => ch ≠ padc) he
    have hall : ∀ n, (digitsOf base n).filter (fun ch => ch ≠ padc) = digitsOf base n := by
      intro n
      rw [List.filter_eq_self]
      intro ch hch
      obtain ⟨h1, h2⟩ := mem_digitsOf hb hb' n ch hch
      rcases hpadc with rfl | rfl
      · exact decide_eq_true h1
      · exact decide_eq_true h2
    have hnone : ∀ k, (List.replicate k padc).filter (fun ch => ch ≠ padc) = [] := by
      intro k
      rw [List.filter_eq_nil_iff]
      intro ch hch
      simp [List.eq_of_mem_replicate hch]
    rwa [List.filter_append, List.filter_append, hnone, hnone, hall, hall] at hf
  have hparse : parse base (digitsOf base m) = parse base (digitsOf base n) := by
    rcases hp with rfl | rfl | rfl
    · rw [hdigits (Or.inl rfl)]
    · rw [hdigits (Or.inr rfl)]
    · have h := congrArg (parse base) he
      rwa [parse_zeros (by omega) hb', parse_zeros (by omega) hb'] at h
  rw [parse_digitsOf hb hb', parse_digitsOf hb hb'] at hparse
  exact Option.some_inj.1 hparse

end
section

variable {st : Spec} {base : Word} {value : Int} {num : BitVec 64} {fmt rest : List Byte}
  {ap ap' : List Arg}

/-- What is printed for a number, and when that is what should be. -/
theorem number_prints (h : FlagsOk st) (hb : base = 10#32 ∨ base = 16#32)
    (hn : num.toNat = value.natAbs) :
    ∃ out, number st base (if value < 0 then [45#8] else []) num = some out ∧
      (Prints st base value out ↔ Fits st base value) := by
  have hbase : 1 < base.toNat ∧ base.toNat ≤ 16 := by rcases hb with rfl | rfl <;> decide
  obtain ⟨m, hm⟩ : ∃ m, m = (num.setWidth 32).toNat := ⟨_, rfl⟩
  have hlow : m = value.natAbs % 2 ^ 32 := by
    rw [hm, BitVec.toNat_setWidth, hn]
  have hlt : m < 2 ^ 32 := by
    rw [hm]
    exact BitVec.isLt _
  have hpow : m < base.toNat ^ LEVELS :=
    lt_of_lt_of_le hlt (Nat.pow_le_pow_left hbase.1 LEVELS)
  have hlen : (digitsOf base.toNat m).length ≤ LEVELS :=
    digitsOf_length hbase.1 (by decide) hpow
  have hnum := printnum_eq hb st.padc LEVELS (num.setWidth 32) st.width (by decide)
    (by rw [← hm]; exact hpow)
  rw [← hm] at hnum
  unfold number
  rw [hnum]
  refine ⟨_, rfl, ?_⟩
  have hw := h.low
  have hw' := h.high
  constructor
  · rintro ⟨ds, he, hp, hne, hz⟩
    obtain rfl := eq_digitsOf hbase.1 hp hne hz
    have he' := List.append_cancel_left he
    have hsame := number_of_padded hbase.1 hbase.2 h.padc he'
    rw [hsame] at he' hlen
    refine ⟨by omega, ?_⟩
    have hcount := congrArg List.length (List.append_cancel_right he')
    rw [List.length_replicate, List.length_replicate] at hcount
    -- a width that leaves the range comes out large
    by_contra hout
    have hlen' : (digitsOf base.toNat value.natAbs).length ≤ 32 := hlen
    rw [wrap_below (by omega) (by omega)] at hcount
    omega
  · rintro ⟨hword, hwidth⟩
    have hsame : m = value.natAbs := by rw [hlow, Nat.mod_eq_of_lt hword]
    rw [hsame] at hlen ⊢
    refine ⟨digitsOf base.toNat value.natAbs, ?_, parse_digitsOf hbase.1 hbase.2 _,
      digitsOf_ne_nil _ _, digitsOf_head hbase.1 hbase.2 _⟩
    have hin : wrap (st.width - (digitsOf base.toNat value.natAbs).length) =
        st.width - (digitsOf base.toNat value.natAbs).length :=
      Int.bmod_eq_of_le (by omega) (by omega)
    rw [hin]

theorem neg_toNat (h : num.toInt < 0) : (-num).toNat = num.toInt.natAbs := by
  have hn := num.isLt
  rw [BitVec.toInt_eq_toNat_cond] at h ⊢
  rw [BitVec.toNat_neg]
  split at h
  · omega
  · next hc =>
    rw [if_neg hc]
    omega

theorem toNat_of_nonneg (h : ¬ num.toInt < 0) : num.toNat = num.toInt.natAbs := by
  have hn := num.isLt
  rw [BitVec.toInt_eq_toNat_cond] at h ⊢
  split at h
  · next hc =>
    rw [if_pos hc]
    omega
  · omega

theorem start_ok : FlagsOk Spec.start := ⟨Or.inl rfl, by decide, by decide⟩

theorem vprintfmt_directive {conv : Byte} {ap1 : List Arg} {out : List Byte}
    (h : reswitch (fmt.length + 1) Spec.start fmt ap = some (st, some conv, rest, ap1))
    (hc : conversion st conv ap1 = some (some (out, ap'))) (rounds : Nat) :
    vprintfmt (rounds + 1) (37#8 :: fmt) ap =
      (vprintfmt rounds rest ap').map fun out' => out ++ out' := by
  rw [vprintfmt, if_neg (not_not.2 rfl), h]
  simp only [Option.bind_some, hc]

/-- What a directive for a number prints is the number, with its sign and its padding, if and only
if the number fits. -/
theorem vprintfmt_number (h : NumberDirective fmt ap st base value rest ap') :
    ∃ out, (∀ rounds, vprintfmt (rounds + 1) (37#8 :: fmt) ap =
        (vprintfmt rounds rest ap').map fun out' => out ++ out') ∧
      (Prints st base value out ↔ Fits st base value) := by
  cases h with
  | @d _ ap1 num _ h ha =>
    have hok := reswitch_ok _ start_ok h
    have hdec : decimal st num = number st 10#32 (if num.toInt < 0 then [45#8] else [])
        (if num.toInt < 0 then -num else num) := by
      unfold decimal
      split <;> rfl
    have hnum : (if num.toInt < 0 then -num else num).toNat = num.toInt.natAbs := by
      split
      · next hneg => exact neg_toNat hneg
      · next hneg => exact toNat_of_nonneg hneg
    obtain ⟨out, hout, hiff⟩ := number_prints hok (Or.inl rfl) hnum
    refine ⟨out, vprintfmt_directive h ?_, hiff⟩
    have hconv : conversion st 100#8 ap1 = some ((getint ap1 st.lflag).bind fun r =>
        (decimal st r.1).map fun out => (out, r.2)) := rfl
    rw [hconv, ha]
    show some ((decimal st num).map fun out => (out, ap')) = _
    rw [hdec, hout]
    rfl
  | @x _ ap1 num _ h ha =>
    have hok := reswitch_ok _ start_ok h
    have hnum : num.toNat = (num.toNat : Int).natAbs := rfl
    obtain ⟨out, hout, hiff⟩ := number_prints hok (Or.inr rfl) hnum
    rw [if_neg (by omega)] at hout
    refine ⟨out, vprintfmt_directive h ?_, hiff⟩
    have hconv : conversion st 120#8 ap1 = some ((getuint ap1 st.lflag).bind fun r =>
        (number st 16#32 [] r.1).map fun out => (out, r.2)) := rfl
    rw [hconv, ha]
    show some ((number st 16#32 [] num).map fun out => (out, ap')) = _
    rw [hout]
    rfl

end

theorem vprintfmt_number_negative : ∃ out,
    (∀ rounds, vprintfmt (rounds + 1) (37#8 :: text "05d.") [.word (-42#32)] =
      (vprintfmt rounds (text ".") []).map fun out' => out ++ out') ∧
    Prints ⟨48#8, 5, -1, 0, false⟩ 10#32 (-42) out := by
  obtain ⟨out, hrun, hiff⟩ := vprintfmt_number (@NumberDirective.d (text "05d.")
    [.word (-42#32)] ⟨48#8, 5, -1, 0, false⟩ (text ".") [.word (-42#32)] (-42#64) [] rfl rfl)
  refine ⟨out, hrun, hiff.2 ⟨by decide, ?_⟩⟩
  have hlen : (digitsOf 10 42).length ≤ 2 := digitsOf_length (by decide) (by decide) (by decide)
  show -2 ^ 31 ≤ (5 : Int) - (digitsOf 10 42).length
  omega

/-- `%lld` prints the lower word of `2 ^ 32 + 5`. -/
theorem not_prints : ¬ ∀ (fmt : List Byte) (ap : List Arg) (st : Spec) (base : Word) (value : Int)
    (rest : List Byte) (ap' : List Arg), NumberDirective fmt ap st base value rest ap' →
      ∃ out, (∀ rounds, vprintfmt (rounds + 1) (37#8 :: fmt) ap =
          (vprintfmt rounds rest ap').map fun out' => out ++ out') ∧
        Prints st base value out := by
  intro h
  obtain ⟨out, hrun, ds, hout, hp, hne, hz⟩ := h (text "lld") [.longlong 0x100000005#64]
    ⟨32#8, -1, -1, 2, false⟩ 10#32 0x100000005 [] []
    (@NumberDirective.d _ _ _ _ [.longlong 0x100000005#64] 0x100000005#64 _ rfl rfl)
  have hfive : vprintfmt 2 (37#8 :: text "lld") [.longlong 0x100000005#64] = some [53#8] := rfl
  have hsame : out = [53#8] := by
    have he := (hrun 1).symm.trans hfive
    rw [show vprintfmt 1 [] [] = some [] from rfl, Option.map_some, List.append_nil] at he
    exact Option.some_inj.1 he
  have hds : ds = [53#8] := by
    have hno : ((-1 : Int) - ds.length).toNat = 0 := by omega
    rw [hsame] at hout
    change [53#8] = [] ++ (List.replicate ((-1 : Int) - ds.length).toNat 32#8 ++ ds) at hout
    rw [hno] at hout
    exact hout.symm
  rw [hds] at hp
  exact absurd hp (by decide)

end nehcpu.kernel.printfmt
