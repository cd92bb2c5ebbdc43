-- Arrays and the allocator together, over every run of a program: the blocks stay apart and inside the
-- buffer, and no access leaves the block of its array.
import Mathlib.Data.List.Pairwise
import Nehcpu.Decaf.Arrays

open Function

namespace nehcpu.decaf

open cpu simulation

/-! ## Allocation -/

/-- The address of a byte of the buffer. -/
def Layout.addr (lay : Layout) (offset : Nat) : Word := lay.buf + BitVec.ofNat 32 offset

theorem Layout.addr_inj (lay : Layout) {a b : Nat} (ha : a < 2 ^ 32) (hb : b < 2 ^ 32)
    (h : lay.addr a = lay.addr b) : a = b := by
  have he : BitVec.ofNat 32 a = BitVec.ofNat 32 b := by
    unfold Layout.addr at h
    exact (BitVec.add_right_inj _).1 h
  have ht := congrArg BitVec.toNat he
  simp only [BitVec.toNat_ofNat] at ht
  omega

/-- The request fits, or the sum that `_Alloc` makes of it is too large for the buffer as a number
with a sign, too. -/
def Meets (cur_size size : Nat) : Prop :=
  cur_size + size ≤ MEM_BUF_SIZE ∨
    (MEM_BUF_SIZE < (cur_size + size) % 2 ^ 32 ∧ (cur_size + size) % 2 ^ 32 < 2 ^ 31)

instance (cur_size size : Nat) : Decidable (Meets cur_size size) :=
  inferInstanceAs (Decidable (_ ∨ _))

section

variable {cur_size : Word} {size : Nat}

/-- A size in whole words is not rounded. -/
theorem alloc_words (hs : size % 4 = 0) :
    _Alloc cur_size (BitVec.ofNat 32 size) =
      if MEM_BUF_SIZE < (cur_size.toNat + size) % 2 ^ 32 ∧
        (cur_size.toNat + size) % 2 ^ 32 < 2 ^ 31 then none
      else some (cur_size, cur_size + BitVec.ofNat 32 size) := by
  have hmask : BitVec.ofNat 32 size &&& 3#32 = 0#32 := by
    apply BitVec.eq_of_toNat_eq
    have hand : size % 2 ^ 32 &&& 3 = size % 2 ^ 32 % 2 ^ 2 := Nat.and_two_pow_sub_one_eq_mod _ 2
    rw [BitVec.toNat_and, BitVec.toNat_ofNat]
    show size % 2 ^ 32 &&& 3 = 0
    rw [hand]
    omega
  have hround : BitVec.ofNat 32 size + ((4#32 - (BitVec.ofNat 32 size &&& 3#32)) &&& 3#32) =
      BitVec.ofNat 32 size := by
    rw [hmask]
    exact BitVec.add_zero _
  have hsum : (cur_size + BitVec.ofNat 32 size).toNat = (cur_size.toNat + size) % 2 ^ 32 := by
    rw [BitVec.toNat_add, BitVec.toNat_ofNat, Nat.add_mod_mod]
  have hlt : (BitVec.ofNat 32 MEM_BUF_SIZE).slt (cur_size + BitVec.ofNat 32 size) = true ↔
      MEM_BUF_SIZE < (cur_size.toNat + size) % 2 ^ 32 ∧
        (cur_size.toNat + size) % 2 ^ 32 < 2 ^ 31 := by
    have hbuf : (BitVec.ofNat 32 MEM_BUF_SIZE).toInt = MEM_BUF_SIZE := by decide
    have hcur := BitVec.toInt_eq_toNat_cond (cur_size + BitVec.ofNat 32 size)
    rw [hsum] at hcur
    rw [BitVec.slt, decide_eq_true_eq, hbuf, hcur]
    unfold MEM_BUF_SIZE
    split <;> omega
  unfold _Alloc
  simp only [hround, hlt]

theorem alloc_fits (hs : size % 4 = 0) (h : cur_size.toNat + size ≤ MEM_BUF_SIZE) :
    _Alloc cur_size (BitVec.ofNat 32 size) = some (cur_size, cur_size + BitVec.ofNat 32 size) ∧
      (cur_size + BitVec.ofNat 32 size).toNat = cur_size.toNat + size := by
  unfold MEM_BUF_SIZE at h
  have hmod : (cur_size.toNat + size) % 2 ^ 32 = cur_size.toNat + size :=
    Nat.mod_eq_of_lt (by omega)
  constructor
  · rw [alloc_words hs, if_neg]
    unfold MEM_BUF_SIZE
    omega
  · rw [BitVec.toNat_add, BitVec.toNat_ofNat, Nat.add_mod_mod, hmod]

/-- A request that meets the condition and does not fit stops the program. -/
theorem alloc_stops (hs : size % 4 = 0) (h : Meets cur_size.toNat size)
    (hn : ¬ cur_size.toNat + size ≤ MEM_BUF_SIZE) :
    _Alloc cur_size (BitVec.ofNat 32 size) = none := by
  rw [alloc_words hs, if_pos (h.resolve_left hn)]

end

/-! ## One new array -/

/-- The code of `genNewArray` has made a block of `n` elements that are zero, behind the blocks that
were there, and returns the address of the first one. -/
structure NewBlock (lay : Layout) (m m' : Machine) (n : Nat) (obj : Word) : Prop where
  fits : m.cur_size.toNat + (4 * n + 4) ≤ MEM_BUF_SIZE
  obj : obj = lay.addr (m.cur_size.toNat + 4)
  length : m'.mem (lay.addr m.cur_size.toNat) = BitVec.ofNat 32 n
  zero : ∀ i < n, m'.mem (lay.addr (m.cur_size.toNat + 4 * (i + 1))) = 0#32
  others : ∀ a, (∀ i ≤ n, a ≠ lay.addr (m.cur_size.toNat + 4 * i)) → m'.mem a = m.mem a
  cur_size : m'.cur_size.toNat = m.cur_size.toNat + (4 * n + 4)

/-- What is asked of the code for a new array: it makes the block, or the block does not fit and the
program stops. -/
def ArrayOk (lay : Layout) (length : Temp) (k j : Nat) (m : Machine) : Prop :=
  (∃ m', Completes lay (codeOf (genNewArray length) k j) m m' ∧
    NewBlock lay m m' (m.temps length).toNat (m'.temps (resultOf (genNewArray length) k j))) ∨
  (¬ m.cur_size.toNat + (4 * (m.temps length).toNat + 4) ≤ MEM_BUF_SIZE ∧
    Stops lay (codeOf (genNewArray length) k j) m)

section

variable {lay : Layout} {length : Temp} {k j : Nat} {m : Machine}

theorem blockSize_eq (n : Word) : blockSize n = BitVec.ofNat 32 (4 * n.toNat + 4) := by
  apply BitVec.eq_of_toNat_eq
  simp only [blockSize, BitVec.toNat_add, BitVec.toNat_mul, BitVec.toNat_ofNat]
  omega

theorem addr_cur (lay : Layout) (w : Word) (n : Nat) :
    lay.buf + w + BitVec.ofNat 32 n = lay.addr (w.toNat + n) := by
  unfold Layout.addr
  rw [BitVec.ofNat_add, BitVec.ofNat_toNat, BitVec.setWidth_eq, BitVec.add_assoc]

theorem addr_cur_zero (lay : Layout) (w : Word) : lay.buf + w = lay.addr w.toNat := by
  unfold Layout.addr
  rw [BitVec.ofNat_toNat, BitVec.setWidth_eq]

/-- A block that fits is made. -/
theorem newArray_fits (hk : length.id < k) (hn : (m.temps length).slt 0#32 = false)
    (hp : m.parms = [])
    (hfit : m.cur_size.toNat + (4 * (m.temps length).toNat + 4) ≤ MEM_BUF_SIZE) :
    ∃ m', Completes lay (codeOf (genNewArray length) k j) m m' ∧ m'.parms = [] ∧
      NewBlock lay m m' (m.temps length).toNat (m'.temps (resultOf (genNewArray length) k j)) := by
  obtain ⟨ha, hcur⟩ := alloc_fits (by omega) hfit
  rw [← blockSize_eq] at ha
  obtain ⟨m', hrun, hobj, hcs, hparms, hzero, hrest⟩ :=
    @newArray_runs lay m length k j hk hn hp _ _ ha
  have hr : (m.temps length).toNat % 2 ^ 30 = (m.temps length).toNat := by
    unfold MEM_BUF_SIZE at hfit
    exact Nat.mod_eq_of_lt (by omega)
  rw [hr] at hzero hrest
  simp only [addr_cur] at hzero hrest
  rw [addr_cur_zero] at hrest
  refine ⟨m', hrun, hparms, hfit, ?_, ?_, hzero, ?_, ?_⟩
  · rw [hobj]
    exact addr_cur lay _ 4
  · unfold MEM_BUF_SIZE at hfit
    rw [hrest, update_self, BitVec.ofNat_toNat, BitVec.setWidth_eq]
    intro i hi he
    have heq := lay.addr_inj (by omega) (by omega) he
    omega
  · intro a hne
    rw [hrest a fun i hi => hne (i + 1) hi]
    exact update_of_ne (hne 0 (Nat.zero_le _)) _ _
  · rw [hcs, blockSize_eq, hcur]

/-- The code does what is asked of it just when the request meets the condition. -/
theorem newArray_iff (hk : length.id < k) (hn : (m.temps length).slt 0#32 = false)
    (hp : m.parms = []) :
    ArrayOk lay length k j m ↔ Meets m.cur_size.toNat (4 * (m.temps length).toNat + 4) := by
  by_cases hfit : m.cur_size.toNat + (4 * (m.temps length).toNat + 4) ≤ MEM_BUF_SIZE
  · refine ⟨fun _ => Or.inl hfit, fun _ => Or.inl ?_⟩
    obtain ⟨m', hrun, -, hnew⟩ := @newArray_fits lay length k j m hk hn hp hfit
    exact ⟨m', hrun, hnew⟩
  · constructor
    · rintro (⟨m', -, hnew⟩ | ⟨-, hstop⟩)
      · exact absurd hnew.fits hfit
      · by_contra hmeets
        have ha : _Alloc m.cur_size (blockSize (m.temps length)) =
            some (m.cur_size, m.cur_size + blockSize (m.temps length)) := by
          rw [blockSize_eq, alloc_words (by omega), if_neg fun hc => hmeets (Or.inr hc)]
        obtain ⟨m', hrun, -⟩ := @newArray_runs lay m length k j hk hn hp _ _ ha
        exact Completes.not_stops hrun hstop
    · intro hmeets
      refine Or.inr ⟨hfit, newArray_full hk hn hp ?_⟩
      rw [blockSize_eq]
      exact alloc_stops (by omega) hmeets hfit

end

/-! ## Programs -/

/-- A block of the buffer, with the number of its elements where it is an array. -/
structure Block where
  off : Nat
  size : Nat
  length : Option Nat
deriving DecidableEq

/-- A program that runs, with the blocks that it has, the newest first. -/
structure Prog where
  m : Machine
  blocks : List Block

/-- The program starts with an empty buffer. -/
def Prog.Starts (p : Prog) : Prop := p.m.cur_size = 0#32 ∧ p.m.parms = [] ∧ p.blocks = []

/-- The temps change at will in between, all else stays. -/
structure Between (m m' : Machine) : Prop where
  mem : m'.mem = m.mem
  parms : m'.parms = m.parms
  cur_size : m'.cur_size = m.cur_size

/-- What a program does with blocks. An object has a number of words that the compiler knows. -/
inductive Request
  | newArray (n : Word)
  | newObject (words : Nat)
  | setElement (b : Block) (i v : Word)
  | setField (b : Block) (offset : Nat) (v : Word)

/-- One request is carried out, from the numbers `k` and `j` of the next temp and label. The block of
an object may be filled with anything. -/
inductive Serves (lay : Layout) : Prog → Request → Prog → Prop
  | newArray {p : Prog} {m m' : Machine} {length : Temp} {k j : Nat} (hb : Between p.m m)
      (hk : length.id < k) (hrun : Completes lay (codeOf (genNewArray length) k j) m m') :
      Serves lay p (.newArray (m.temps length))
        ⟨m', ⟨m.cur_size.toNat, (m'.cur_size - m.cur_size).toNat,
          some (m.temps length).toNat⟩ :: p.blocks⟩
  | newObject {p : Prog} {m' : Machine} {words : Nat} {offset cur_size : Word}
      (ha : _Alloc p.m.cur_size (BitVec.ofNat 32 (4 * words)) = some (offset, cur_size))
      (hc : m'.cur_size = cur_size) (hp : m'.parms = p.m.parms)
      (hm : ∀ a, (∀ i < words, a ≠ lay.addr (offset.toNat + 4 * i)) → m'.mem a = p.m.mem a) :
      Serves lay p (.newObject words)
        ⟨m', ⟨offset.toNat, (cur_size - p.m.cur_size).toNat, none⟩ :: p.blocks⟩
  | setElement {p : Prog} {m m' : Machine} {array index expr : Temp} {k j : Nat} {b : Block}
      {n : Nat} (hb : Between p.m m) (hmem : b ∈ p.blocks) (hn : b.length = some n)
      (ha : array.id < k) (hi : index.id < k) (he : expr.id < k)
      (haddr : m.temps array = lay.addr (b.off + 4))
      (hrun : Completes lay (codeOf (visitAssign array index expr) k j) m m') :
      Serves lay p (.setElement b (m.temps index) (m.temps expr)) ⟨m', p.blocks⟩
  | setField {p : Prog} {b : Block} {offset : Nat} {v : Word} (hmem : b ∈ p.blocks)
      (hn : b.length = none) (ho : 4 * offset + 4 ≤ b.size) :
      Serves lay p (.setField b offset v)
        ⟨{ p.m with mem := update p.m.mem (lay.addr (b.off + 4 * offset)) v }, p.blocks⟩

/-- The condition on a request. -/
def Request.Clean (p : Prog) : Request → Prop
  | .newArray n => Meets p.m.cur_size.toNat (4 * n.toNat + 4)
  | .newObject words => Meets p.m.cur_size.toNat (4 * words)
  | _ => True

/-- The state after a run whose requests all meet the condition. -/
inductive CleanRun (lay : Layout) : Prog → Prop
  | start {p : Prog} (h : p.Starts) : CleanRun lay p
  | step {p p' : Prog} {r : Request} (h : CleanRun lay p) (hc : r.Clean p)
      (hs : Serves lay p r p') : CleanRun lay p'

/-! ## The invariant -/

/-- The blocks lie one behind the other in the buffer, and each array has its length in front. -/
structure Arena (lay : Layout) (p : Prog) : Prop where
  cur : p.m.cur_size.toNat ≤ MEM_BUF_SIZE
  word : p.m.cur_size.toNat % 4 = 0
  parms : p.m.parms = []
  order : p.blocks.Pairwise fun b c => c.off + c.size ≤ b.off
  inside : ∀ b ∈ p.blocks, b.off + b.size ≤ p.m.cur_size.toNat ∧ b.off % 4 = 0
  arrays : ∀ b ∈ p.blocks, ∀ n, b.length = some n → b.size = 4 * n + 4 ∧
    p.m.mem (lay.addr b.off) = BitVec.ofNat 32 n

section

variable {lay : Layout} {p : Prog}

/-- Two blocks have no byte in common. -/
theorem Arena.disjoint (h : Arena lay p) {b c : Block} (hb : b ∈ p.blocks) (hc : c ∈ p.blocks)
    (hne : b ≠ c) : b.off + b.size ≤ c.off ∨ c.off + c.size ≤ b.off := by
  have hpair : p.blocks.Pairwise fun b c => b.off + b.size ≤ c.off ∨ c.off + c.size ≤ b.off :=
    h.order.imp fun hle => Or.inr hle
  have hsymm : Std.Symm fun b c : Block => b.off + b.size ≤ c.off ∨ c.off + c.size ≤ b.off :=
    ⟨fun _ _ hle => hle.symm⟩
  exact hpair.forall hb hc hne

theorem Arena.start (h : p.Starts) : Arena lay p := by
  obtain ⟨hc, hp, hb⟩ := h
  refine ⟨?_, ?_, hp, ?_, ?_, ?_⟩
  · rw [hc]
    decide
  · rw [hc]
    rfl
  · rw [hb]
    exact List.Pairwise.nil
  · intro b hm
    rw [hb] at hm
    cases hm
  · intro b hm
    rw [hb] at hm
    cases hm

/-- A new block at the end of the others. -/
theorem Arena.push (h : Arena lay p) {m' : Machine} {words : Nat} {length : Option Nat}
    (hfit : p.m.cur_size.toNat + 4 * words ≤ MEM_BUF_SIZE) (hp : m'.parms = [])
    (hc : m'.cur_size.toNat = p.m.cur_size.toNat + 4 * words)
    (hm : ∀ a, (∀ i < words, a ≠ lay.addr (p.m.cur_size.toNat + 4 * i)) → m'.mem a = p.m.mem a)
    (hl : ∀ n, length = some n → words = n + 1 ∧
      m'.mem (lay.addr p.m.cur_size.toNat) = BitVec.ofNat 32 n) :
    Arena lay ⟨m', ⟨p.m.cur_size.toNat, 4 * words, length⟩ :: p.blocks⟩ := by
  have hcur := h.cur
  have hword := h.word
  unfold MEM_BUF_SIZE at hfit hcur
  refine ⟨?_, ?_, hp, ?_, ?_, ?_⟩
  · show m'.cur_size.toNat ≤ MEM_BUF_SIZE
    unfold MEM_BUF_SIZE
    omega
  · show m'.cur_size.toNat % 4 = 0
    omega
  · exact List.pairwise_cons.2 ⟨fun b hb => (h.inside b hb).1, h.order⟩
  · intro b hb
    show b.off + b.size ≤ m'.cur_size.toNat ∧ b.off % 4 = 0
    rcases List.mem_cons.1 hb with rfl | hb
    · exact ⟨Nat.le_of_eq hc.symm, hword⟩
    · have hin := h.inside b hb
      omega
  · intro b hb n hn
    rcases List.mem_cons.1 hb with rfl | hb
    · obtain ⟨hw, hmem⟩ := hl n hn
      refine ⟨?_, hmem⟩
      show 4 * words = 4 * n + 4
      omega
    · obtain ⟨hsize, hmem⟩ := h.arrays b hb n hn
      refine ⟨hsize, ?_⟩
      show m'.mem (lay.addr b.off) = _
      rw [hm, hmem]
      intro i hi he
      have hin := (h.inside b hb).1
      have heq := lay.addr_inj (by omega) (by omega) he
      omega

/-- A word that is stored in a block, and not on the length of an array. -/
theorem Arena.store (h : Arena lay p) {m' : Machine} {b : Block} (hb : b ∈ p.blocks) {e : Nat}
    {v : Word} (hm : m'.mem = update p.m.mem (lay.addr e) v) (hp : m'.parms = p.m.parms)
    (hc : m'.cur_size = p.m.cur_size) (hlo : b.off ≤ e) (hhi : e + 4 ≤ b.off + b.size)
    (hl : b.length ≠ none → b.off < e) : Arena lay ⟨m', p.blocks⟩ := by
  have hcur := h.cur
  unfold MEM_BUF_SIZE at hcur
  refine ⟨?_, ?_, hp.trans h.parms, h.order, ?_, ?_⟩
  · show m'.cur_size.toNat ≤ MEM_BUF_SIZE
    rw [hc]
    exact h.cur
  · show m'.cur_size.toNat % 4 = 0
    rw [hc]
    exact h.word
  · intro c hcb
    show c.off + c.size ≤ m'.cur_size.toNat ∧ c.off % 4 = 0
    rw [hc]
    exact h.inside c hcb
  · intro c hcb n hn
    obtain ⟨hsize, hmem⟩ := h.arrays c hcb n hn
    refine ⟨hsize, ?_⟩
    show m'.mem (lay.addr c.off) = _
    rw [hm, update_of_ne, hmem]
    intro he
    have hinb := (h.inside b hb).1
    have hinc := (h.inside c hcb).1
    have heq := lay.addr_inj (by omega) (by omega) he
    by_cases hbc : b = c
    · subst hbc
      have hlt := hl (by rw [hn]; exact Option.some_ne_none n)
      omega
    · have hdis := h.disjoint hb hcb hbc
      omega

/-- The address of an element that passes the check. -/
theorem Arena.element (h : Arena lay p) {b : Block} (hb : b ∈ p.blocks) {n : Nat}
    (hn : b.length = some n) {m : Machine} (hm : m.mem = p.m.mem) {array index : Temp}
    (haddr : m.temps array = lay.addr (b.off + 4)) (hpass : Passes m array index) :
    (m.temps index).toNat < n ∧
      elementAddr (m.temps array) (m.temps index) =
        lay.addr (b.off + 4 * ((m.temps index).toNat + 1)) := by
  obtain ⟨hsize, hlen⟩ := h.arrays b hb n hn
  have hin := (h.inside b hb).1
  have hcur := h.cur
  unfold MEM_BUF_SIZE at hcur
  have hfront : m.temps array - 4#32 = lay.addr b.off := by
    rw [haddr]
    unfold Layout.addr
    apply BitVec.eq_of_toNat_eq
    simp only [BitVec.toNat_sub, BitVec.toNat_add, BitVec.toNat_ofNat]
    omega
  obtain ⟨hlt, hge⟩ := hpass
  rw [hfront, hm, hlen] at hlt
  have hidx : (m.temps index).toNat < n := by
    have hcond := BitVec.toInt_eq_toNat_cond (m.temps index)
    have hcondn := BitVec.toInt_eq_toNat_cond (BitVec.ofNat 32 n)
    have hzero : (0#32).toInt = 0 := by decide
    rw [BitVec.slt, decide_eq_true_eq] at hlt
    rw [BitVec.slt, decide_eq_false_iff_not, hzero] at hge
    rw [BitVec.toNat_ofNat] at hcondn
    rw [hcond] at hlt hge
    rw [hcondn] at hlt
    have hi := (m.temps index).isLt
    split at hge <;> split at hlt <;> omega
  refine ⟨hidx, ?_⟩
  rw [haddr]
  unfold elementAddr Layout.addr
  apply BitVec.eq_of_toNat_eq
  simp only [BitVec.toNat_add, BitVec.toNat_mul, BitVec.toNat_ofNat]
  omega

/-- Every request that meets the condition keeps the arena. -/
theorem Arena.serves (h : Arena lay p) {r : Request} {p' : Prog} (hc : r.Clean p)
    (hs : Serves lay p r p') : Arena lay p' := by
  cases hs with
  | @newArray m m' length k j hb hk hrun =>
    have hn : (m.temps length).slt 0#32 = false := by
      rw [← Bool.not_eq_true]
      exact fun hneg => Completes.not_stops hrun (newArray_negative hk hneg)
    have hp : m.parms = [] := hb.parms.trans h.parms
    have hcs : m.cur_size = p.m.cur_size := hb.cur_size
    have hmeets : Meets m.cur_size.toNat (4 * (m.temps length).toNat + 4) := by
      rw [hcs]
      exact hc
    have hfit : m.cur_size.toNat + (4 * (m.temps length).toNat + 4) ≤ MEM_BUF_SIZE := by
      by_contra hbig
      apply Completes.not_stops hrun
      apply newArray_full hk hn hp
      rw [blockSize_eq]
      exact alloc_stops (by omega) hmeets hbig
    obtain ⟨m1, hrun1, hparms, hnew⟩ := @newArray_fits lay length k j m hk hn hp hfit
    have he := Completes.unique hrun1 hrun
    rw [he] at hparms hnew
    have hsize : (m'.cur_size - m.cur_size).toNat = 4 * ((m.temps length).toNat + 1) := by
      have hcur := hnew.cur_size
      have hlt := m.cur_size.isLt
      rw [BitVec.toNat_sub]
      unfold MEM_BUF_SIZE at hfit
      omega
    have hcs' := hnew.cur_size
    rw [hcs] at hcs' hfit
    rw [hsize, hcs]
    apply h.push hfit hparms hcs'
    · intro a ha
      rw [hnew.others a ?_, hb.mem]
      rw [hcs]
      exact fun i hi => ha i (Nat.lt_succ_of_le hi)
    · rintro n ⟨⟩
      refine ⟨rfl, ?_⟩
      have hlen := hnew.length
      rw [hcs] at hlen
      exact hlen
  | @newObject m' words offset cur_size ha hcs hp hm =>
    have hfit : p.m.cur_size.toNat + 4 * words ≤ MEM_BUF_SIZE := by
      by_contra hbig
      rw [alloc_stops (by omega) hc hbig] at ha
      cases ha
    obtain ⟨ha', hcur⟩ := alloc_fits (by omega) hfit
    rw [ha', Option.some.injEq, Prod.mk.injEq] at ha
    obtain ⟨rfl, rfl⟩ := ha
    have hsize : (p.m.cur_size + BitVec.ofNat 32 (4 * words) - p.m.cur_size).toNat = 4 * words := by
      rw [BitVec.toNat_sub, hcur]
      unfold MEM_BUF_SIZE at hfit
      omega
    rw [hsize]
    refine h.push hfit (hp.trans h.parms) ?_ hm ?_
    · rw [hcs, hcur]
    · rintro n ⟨⟩
  | @setElement m m' array index expr k j b n hb hmem hn ha hi he haddr hrun =>
    have hpass : Passes m array index := by
      by_contra hno
      apply Completes.not_stops hrun
      rw [visitAssign_code]
      exact index_stops ha hi hno
    obtain ⟨m1, hrun1, hmem1, hp1, hc1⟩ := @visitAssign_runs lay m k j array index expr ha hi he hpass
    have heq := Completes.unique hrun1 hrun
    rw [heq] at hmem1 hp1 hc1
    obtain ⟨hlt, hel⟩ := h.element hmem hn hb.mem haddr hpass
    have hsize := (h.arrays b hmem n hn).1
    rw [hel, hb.mem] at hmem1
    exact h.store hmem hmem1 (hp1.trans hb.parms) (hc1.trans hb.cur_size) (by omega) (by omega)
      fun _ => by omega
  | @setField b offset v hmem hn ho =>
    exact h.store hmem rfl rfl rfl (by omega) (by omega) fun hno => absurd hn hno

theorem Arena.of_run (h : CleanRun lay p) : Arena lay p := by
  induction h with
  | start h => exact Arena.start h
  | step _ hc hs ih => exact ih.serves hc hs

end

/-- After every run whose requests meet the condition: the blocks are apart and inside the buffer,
each array has its length in front, the code of an access stops the program or stays inside the block
of its array, and the code for the next array does what is asked of it just when that request meets
the condition, too. -/
theorem arrays_safe (lay : Layout) (p : Prog) (h : CleanRun lay p) :
    (p.blocks.Pairwise fun b c => c.off + c.size ≤ b.off) ∧
    (∀ b ∈ p.blocks, b.off + b.size ≤ MEM_BUF_SIZE) ∧
    (∀ b ∈ p.blocks, ∀ n, b.length = some n →
      b.size = 4 * n + 4 ∧ p.m.mem (lay.addr b.off) = BitVec.ofNat 32 n) ∧
    (∀ b ∈ p.blocks, ∀ n, b.length = some n → ∀ (m : Machine) (array index : Temp) (k j : Nat),
      Between p.m m → array.id < k → index.id < k → m.temps array = lay.addr (b.off + 4) →
      Stops lay (codeOf (visitIndexed array index) k j) m ∨
      ∃ m' e, Completes lay (codeOf (visitIndexed array index) k j) m m' ∧
        elementAddr (m.temps array) (m.temps index) = lay.addr e ∧
        b.off + 4 ≤ e ∧ e + 4 ≤ b.off + b.size) ∧
    ∀ (m : Machine) (length : Temp) (k j : Nat), Between p.m m → length.id < k →
      (m.temps length).slt 0#32 = false →
      (ArrayOk lay length k j m ↔ Meets p.m.cur_size.toNat (4 * (m.temps length).toNat + 4)) := by
  have harena := Arena.of_run h
  refine ⟨harena.order, fun b hb => Nat.le_trans (harena.inside b hb).1 harena.cur, harena.arrays,
    ?_, ?_⟩
  · intro b hb n hn m array index k j hbet ha hi haddr
    by_cases hpass : Passes m array index
    · obtain ⟨m', hrun, -⟩ := @visitIndexed_runs lay m k j array index ha hi hpass
      obtain ⟨hlt, hel⟩ := harena.element hb hn hbet.mem haddr hpass
      have hsize := (harena.arrays b hb n hn).1
      exact Or.inr ⟨m', _, hrun, hel, by omega, by omega⟩
    · left
      rw [visitIndexed_code]
      exact index_stops ha hi hpass
  · intro m length k j hbet hk hn
    rw [newArray_iff hk hn (hbet.parms.trans harena.parms), hbet.cur_size]

/-! ## An empty buffer -/

/-- The buffer at an address of the data of a program. -/
def exampleLayout : Layout := ⟨0x10000#32, fun _ => 0#32, fun _ => 0#32, by decide, by decide⟩

/-- A program about to make an array, with the length in its only temp. -/
def startProg (n : Word) : Prog := ⟨⟨fun _ => n, 0#32, fun _ => 0#32, [], 0#32⟩, []⟩

theorem arrays_safe_start : CleanRun exampleLayout (startProg 2#32) ∧
    ArrayOk exampleLayout ⟨0⟩ 1 3 (startProg 2#32).m :=
  ⟨.start ⟨rfl, rfl, rfl⟩, ((arrays_safe exampleLayout (startProg 2#32) (.start ⟨rfl, rfl, rfl⟩)).2.2.2.2
    (startProg 2#32).m ⟨0⟩ 1 3 ⟨rfl, rfl, rfl⟩ (by decide) (by decide)).2 (by decide)⟩

/-- An array of 2 ^ 30 elements gets a block of one word. -/
theorem array_too_long : ¬ ∀ (lay : Layout) (p : Prog) (length : Temp) (k j : Nat),
    CleanRun lay p → length.id < k → (p.m.temps length).slt 0#32 = false →
    ArrayOk lay length k j p.m := by
  intro h
  have hok := h exampleLayout (startProg 0x40000000#32) ⟨0⟩ 1 3 (.start ⟨rfl, rfl, rfl⟩) (by decide)
    (by decide)
  rw [newArray_iff (by decide) (by decide) rfl] at hok
  revert hok
  decide

end nehcpu.decaf
