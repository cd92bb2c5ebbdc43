-- `copy_string` of `vmm.c`: a string of a program goes into a buffer of the kernel part by part,
-- and each part is checked before a byte of it is read.
import Nehcpu.Kernel.UserCopy
import Nehcpu.Kernel.PageEdits

namespace nehcpu.kernel

open cpu

/-! ## The copy -/

/-- What the copy does with the memory of the program and of the kernel. -/
inductive Access
  | check (addr len : Word) (ok : Bool)
  | load (addr : Word)
  | store (addr : Word)
deriving DecidableEq, Repr

/-- `log` is not part of the code: it has what was done, the newest first. -/
structure Copying where
  mem : Word → BitVec 8
  mm : Option Mm
  log : List Access

namespace Copying

def check (s : Copying) (addr len : Word) : Bool × Copying :=
  let (ok, mm) := user_mem_check s.mm addr len false
  (ok, { s with mm := mm, log := .check addr len ok :: s.log })

def load (s : Copying) (addr : Word) : BitVec 8 × Copying :=
  (s.mem addr, { s with log := .load addr :: s.log })

def store (s : Copying) (addr : Word) (c : BitVec 8) : Copying :=
  { s with mem := fun a => if a = addr then c else s.mem a, log := .store addr :: s.log }

end Copying

def strnlen (s : Copying) (p : Word) : Nat → Nat × Copying
  | 0 => (0, s)
  | len + 1 =>
    let (c, s) := s.load p
    if c ≠ 0#8 then
      let (cnt, s) := strnlen s (p + 1#32) len
      (cnt + 1, s)
    else (0, s)

def memcpyBytes (s : Copying) (d p : Word) : Nat → Copying
  | 0 => s
  | n + 1 =>
    let (c, s) := s.load p
    memcpyBytes (s.store d c) (d + 1#32) (p + 1#32) n

theorem user_mem_check_pos {mm : Option Mm} {addr len : Word} {write : Bool}
    (h : (user_mem_check mm addr len write).1 = true) : 0 < len.toNat := by
  have hlt : addr < addr + len := by
    unfold user_mem_check at h
    cases mm with
    | none => exact (of_decide_eq_true h).2.1
    | some mm =>
      simp only at h
      split at h
      · cases h
      · next hu => exact (not_not.1 hu).2.1
  apply Nat.pos_of_ne_zero
  intro hz
  rw [BitVec.eq_of_toNat_eq (x := len) (y := 0#32) hz, BitVec.add_zero] at hlt
  exact absurd hlt (BitVec.lt_irrefl addr)

/-- The first part of the source. -/
def firstPart (part maxn : Word) : Word := if maxn < part then maxn else part

/-- The loop of `copy_string`. -/
def copyParts (s : Copying) (dst src maxn part : Word) : Bool × Copying :=
  let part := firstPart part maxn
  if _h : (s.check src part).1 = true then
    let (alen, s) := strnlen (s.check src part).2 src part.toNat
    if alen < part.toNat then (true, memcpyBytes s dst src (alen + 1))
    else if part = maxn then (false, s)
    else copyParts (memcpyBytes s dst src part.toNat) (dst + part) (src + part) (maxn - part) PGSIZE
  else (false, (s.check src part).2)
termination_by maxn.toNat
decreasing_by
  have hpos : 0 < part.toNat := user_mem_check_pos _h
  have hle : part.toNat ≤ maxn.toNat := by
    show (firstPart _ maxn).toNat ≤ _
    unfold firstPart
    split
    · exact le_rfl
    · next hlt => exact Nat.le_of_not_lt hlt
  rw [BitVec.toNat_sub_of_le hle]
  omega

def copy_string (mem : Word → BitVec 8) (mm : Option Mm) (dst src maxn : Word) : Bool × Copying :=
  copyParts ⟨mem, mm, []⟩ dst src maxn (ROUNDDOWN_2N (src + PGSIZE) PGSHIFT - src)

/-! ## What is read -/

/-- Each byte that is read is one of a range that passed the check before. -/
def LoadsChecked : List Access → Prop
  | [] => True
  | .load a :: log =>
    (∃ p len, .check p len true ∈ log ∧ (a - p).toNat < len.toNat) ∧ LoadsChecked log
  | _ :: log => LoadsChecked log

section

variable {s : Copying}

theorem LoadsChecked.load {log : List Access} (h : LoadsChecked log) {p len a : Word}
    (hc : .check p len true ∈ log) (ha : (a - p).toNat < len.toNat) :
    LoadsChecked (.load a :: log) :=
  ⟨⟨p, len, hc, ha⟩, h⟩

theorem add_ofNat_succ (p : Word) (k : Nat) :
    p + BitVec.ofNat 32 (k + 1) = p + 1#32 + BitVec.ofNat 32 k := by
  rw [Nat.add_comm, BitVec.ofNat_add, BitVec.add_assoc]

/-- `strnlen` counts the bytes before the first NUL. -/
theorem strnlen_cnt (p : Word) (n : Nat) :
    (strnlen s p n).1 ≤ n ∧ (∀ k < (strnlen s p n).1, s.mem (p + BitVec.ofNat 32 k) ≠ 0#8) ∧
      ((strnlen s p n).1 < n → s.mem (p + BitVec.ofNat 32 (strnlen s p n).1) = 0#8) := by
  induction n generalizing s p with
  | zero =>
    refine ⟨le_rfl, ?_, ?_⟩
    · intro k hk
      cases hk
    · intro hlt
      cases hlt
  | succ n ih =>
    obtain ⟨hle, hnz, hz⟩ := ih (s := (s.load p).2) (p + 1#32)
    unfold strnlen
    by_cases hc : s.mem p = 0#8
    · simp only [Copying.load, hc, ne_eq, not_true_eq_false, if_false]
      refine ⟨Nat.zero_le _, fun k hk => absurd hk (Nat.not_lt_zero k), ?_⟩
      intro _
      rw [BitVec.add_zero]
      exact hc
    · simp only [Copying.load, hc, ne_eq, not_false_eq_true, if_true]
      refine ⟨Nat.succ_le_succ hle, ?_, ?_⟩
      · intro k hk
        cases k with
        | zero =>
          rw [BitVec.add_zero]
          exact hc
        | succ k =>
          rw [add_ofNat_succ]
          exact hnz k (Nat.lt_of_succ_lt_succ hk)
      · intro hlt
        rw [add_ofNat_succ]
        exact hz (Nat.lt_of_succ_lt_succ hlt)

/-- It reads in the range that was checked, and does nothing else. -/
theorem strnlen_reads {q len : Word} (p : Word) (n : Nat) (hlog : LoadsChecked s.log)
    (hc : .check q len true ∈ s.log)
    (hin : ∀ k < n, (p + BitVec.ofNat 32 k - q).toNat < len.toNat) :
    (strnlen s p n).2.mem = s.mem ∧ (strnlen s p n).2.mm = s.mm ∧
      s.log <:+ (strnlen s p n).2.log ∧ LoadsChecked (strnlen s p n).2.log ∧
      ∀ a, .store a ∈ (strnlen s p n).2.log → .store a ∈ s.log := by
  induction n generalizing s p with
  | zero => exact ⟨rfl, rfl, List.suffix_rfl, hlog, fun a ha => ha⟩
  | succ n ih =>
    have hp : (p - q).toNat < len.toNat := by
      have h0 := hin 0 (Nat.succ_pos n)
      rw [BitVec.add_zero] at h0
      exact h0
    have hload : LoadsChecked (s.load p).2.log := hlog.load hc hp
    have hstore : ∀ a, Access.store a ∈ (s.load p).2.log → .store a ∈ s.log := by
      intro a ha
      exact (List.mem_cons.1 ha).resolve_left (by simp)
    have hsuff : s.log <:+ (s.load p).2.log := List.suffix_cons ..
    unfold strnlen
    by_cases h0 : s.mem p = 0#8
    · simp only [Copying.load, h0, ne_eq, not_true_eq_false, if_false]
      exact ⟨trivial, trivial, hsuff, hload, hstore⟩
    · obtain ⟨hmem, hmm, hlog', hok, hst⟩ := ih (s := (s.load p).2) (p + 1#32) hload
        (List.mem_cons_of_mem _ hc) fun k hk => by
          rw [← add_ofNat_succ]
          exact hin (k + 1) (Nat.succ_lt_succ hk)
      simp only [Copying.load, h0, ne_eq, not_false_eq_true, if_true]
      exact ⟨hmem, hmm, hsuff.trans hlog', hok, fun a ha => hstore a (hst a ha)⟩

/-- `memcpy` of bytes outside the buffer. -/
theorem memcpyBytes_mem (d p : Word) (n : Nat)
    (hout : ∀ k < n, n ≤ (p + BitVec.ofNat 32 k - d).toNat) (a : Word) :
    (memcpyBytes s d p n).mem a =
      if (a - d).toNat < n then s.mem (p + (a - d)) else s.mem a := by
  induction n generalizing s d p with
  | zero => rfl
  | succ n ih =>
    have hn : n + 1 < 2 ^ 32 := by
      exact Nat.lt_of_le_of_lt (hout 0 (Nat.succ_pos n)) (BitVec.isLt _)
    have hout' : ∀ k < n, n ≤ (p + 1#32 + BitVec.ofNat 32 k - (d + 1#32)).toNat := by
      intro k hk
      have heq : p + 1#32 + BitVec.ofNat 32 k - (d + 1#32) = p + BitVec.ofNat 32 k - d := by
        bv_omega
      rw [heq]
      exact Nat.le_of_succ_le (hout k (Nat.lt_succ_of_lt hk))
    have hsrc : p + 1#32 + (a - (d + 1#32)) = p + (a - d) := by bv_omega
    unfold memcpyBytes
    simp only [Copying.load]
    rw [ih (d + 1#32) (p + 1#32) hout', hsrc]
    simp only [Copying.store]
    by_cases ha : a = d
    · have hlast : ¬ (a - (d + 1#32)).toNat < n := by bv_omega
      have hfirst : p + (a - d) = p := by bv_omega
      rw [if_neg hlast, if_pos ha, if_pos (by bv_omega), hfirst]
    · have hprev : (a - (d + 1#32)).toNat < n ↔ (a - d).toNat < n + 1 := by bv_omega
      rw [if_congr hprev rfl rfl, if_neg ha]
      split
      · next hlt =>
        have hne : p + (a - d) ≠ d := by
          intro he
          have hk := hout (a - d).toNat hlt
          rw [BitVec.ofNat_toNat, BitVec.setWidth_eq, he, BitVec.sub_self] at hk
          exact absurd hk (Nat.not_succ_le_zero n)
        rw [if_neg hne]
      · rfl

theorem memcpyBytes_reads {q len : Word} (d p : Word) (n : Nat) (hlog : LoadsChecked s.log)
    (hc : .check q len true ∈ s.log)
    (hin : ∀ k < n, (p + BitVec.ofNat 32 k - q).toNat < len.toNat) :
    (memcpyBytes s d p n).mm = s.mm ∧ LoadsChecked (memcpyBytes s d p n).log ∧
      ∀ a, .store a ∈ (memcpyBytes s d p n).log →
        .store a ∈ s.log ∨ ∃ k < n, a = d + BitVec.ofNat 32 k := by
  induction n generalizing s d p with
  | zero => exact ⟨rfl, hlog, fun a ha => Or.inl ha⟩
  | succ n ih =>
    have hp : (p - q).toNat < len.toNat := by
      have h0 := hin 0 (Nat.succ_pos n)
      rw [BitVec.add_zero] at h0
      exact h0
    obtain ⟨hmm, hok, hst⟩ := ih (s := (s.load p).2.store d (s.mem p)) (d + 1#32) (p + 1#32)
      (hlog.load hc hp) (List.mem_cons_of_mem _ (List.mem_cons_of_mem _ hc)) fun k hk => by
        rw [← add_ofNat_succ]
        exact hin (k + 1) (Nat.succ_lt_succ hk)
    refine ⟨hmm, hok, ?_⟩
    intro a ha
    rcases hst a ha with ha | ⟨k, hk, rfl⟩
    · rcases List.mem_cons.1 ha with ha | ha
      · right
        refine ⟨0, Nat.succ_pos n, ?_⟩
        rw [BitVec.add_zero]
        exact Access.store.inj ha
      · exact Or.inl ((List.mem_cons.1 ha).resolve_left (by simp))
    · right
      exact ⟨k + 1, Nat.succ_lt_succ hk, (add_ofNat_succ d k).symm⟩

end

/-! ## The parts -/

/-- The first NUL of the string at `src` is `n` bytes on. -/
def NulAt (mem : Word → BitVec 8) (src : Word) (n : Nat) : Prop :=
  mem (src + BitVec.ofNat 32 n) = 0#8 ∧ ∀ k < n, mem (src + BitVec.ofNat 32 k) ≠ 0#8

/-- The part that starts `o` bytes on ends with its page or at the limit. -/
def partLen (src : Word) (maxn o : Nat) : Nat := min (4096 - (src.toNat + o) % 4096) (maxn - o)

/-- Each part up to the byte `n` bytes on passes the check. A part starts at `src` or with a
page. -/
def PartsPass (mm : Mm) (src : Word) (maxn n : Nat) : Prop :=
  ∀ o ≤ n, o = 0 ∨ (src.toNat + o) % 4096 = 0 →
    (user_mem_check (some mm) (src + BitVec.ofNat 32 o) (BitVec.ofNat 32 (partLen src maxn o))
      false).1 = true

/-- What a copy is to do, from the state in which it starts. -/
structure Copied (mem : Word → BitVec 8) (mm : Mm) (s : Copying) (dst src maxn : Word)
    (r : Bool × Copying) : Prop where
  ends : r.1 = true ↔ ∃ n < maxn.toNat, NulAt mem src n ∧ PartsPass mm src maxn.toNat n
  copied : r.1 = true → ∀ n, NulAt mem src n → ∀ a,
    r.2.mem a = if (a - dst).toNat ≤ n then mem (src + (a - dst)) else s.mem a
  kept : ∀ a, maxn.toNat ≤ (a - dst).toNat → r.2.mem a = s.mem a
  checked : LoadsChecked r.2.log
  stores : ∀ a, .store a ∈ r.2.log → .store a ∈ s.log ∨ (a - dst).toNat < maxn.toNat

theorem KeepsAreas.check_eq {mm mm' : Mm} (h : ListOk mm) (hs : KeepsAreas mm mm') (addr len : Word)
    (write : Bool) :
    (user_mem_check (some mm') addr len write).1 = (user_mem_check (some mm) addr len write).1 := by
  have hlist : mm'.mmap_list = mm.mmap_list := by rw [hs.1]
  rw [Bool.eq_iff_iff, user_mem_check_exact mm' hs.2, user_mem_check_exact mm h, hlist]

/-- The state at the head of the loop. -/
structure AtPart (mem : Word → BitVec 8) (mm : Mm) (s : Copying) (dst src maxn part : Word) :
    Prop where
  areas : ∃ mm', s.mm = some mm' ∧ KeepsAreas mm mm'
  user : ∀ a < USERTOP, s.mem a = mem a
  checked : LoadsChecked s.log
  part : part.toNat = 4096 - src.toNat % 4096
  buffer : KERNBASE ≤ dst
  room : dst.toNat + maxn.toNat ≤ 2 ^ 32

/-- The state after `strnlen` on a part that passed the check. -/
structure Looked (mem : Word → BitVec 8) (mm : Mm) (s : Copying) (src part : Word) (cnt : Nat)
    (s' : Copying) : Prop where
  pos : 0 < part.toNat
  top : src.toNat + part.toNat ≤ 2 ^ 31
  le : cnt ≤ part.toNat
  nonzero : ∀ k < cnt, mem (src + BitVec.ofNat 32 k) ≠ 0#8
  zero : cnt < part.toNat → mem (src + BitVec.ofNat 32 cnt) = 0#8
  kept : s'.mem = s.mem
  areas : ∃ mm', s'.mm = some mm' ∧ KeepsAreas mm mm'
  checked : LoadsChecked s'.log
  passed : .check src part true ∈ s'.log
  stores : ∀ a, .store a ∈ s'.log → .store a ∈ s.log

theorem firstPart_toNat (part maxn : Word) :
    (firstPart part maxn).toNat = min part.toNat maxn.toNat := by
  unfold firstPart
  split
  · next hlt => exact (Nat.min_eq_right (Nat.le_of_lt hlt)).symm
  · next hlt => exact (Nat.min_eq_left (Nat.le_of_not_lt hlt)).symm

theorem firstPart_le (part maxn : Word) : (firstPart part maxn).toNat ≤ maxn.toNat := by
  rw [firstPart_toNat]
  exact Nat.min_le_right _ _

section

variable {mem : Word → BitVec 8} {mm : Mm} {s s' : Copying} {dst src maxn part : Word} {cnt : Nat}

theorem AtPart.firstPart_eq (i : AtPart mem mm s dst src maxn part) :
    firstPart part maxn = BitVec.ofNat 32 (partLen src maxn.toNat 0) := by
  apply BitVec.eq_of_toNat_eq
  have hlt := maxn.isLt
  unfold partLen
  rw [firstPart_toNat, i.part, BitVec.toNat_ofNat, Nat.add_zero, Nat.sub_zero]
  exact (Nat.mod_eq_of_lt (by omega)).symm

/-- The cache of an earlier check makes no difference to the next. -/
theorem AtPart.check_iff (h : ListOk mm) (i : AtPart mem mm s dst src maxn part) :
    (s.check src (firstPart part maxn)).1 = true ↔
      (user_mem_check (some mm) src (BitVec.ofNat 32 (partLen src maxn.toNat 0)) false).1 =
        true := by
  obtain ⟨mm', hmm, hsame⟩ := i.areas
  rw [← i.firstPart_eq, ← hsame.check_eq h, ← hmm]
  rfl

theorem AtPart.looked (i : AtPart mem mm s dst src maxn part)
    (hp : (s.check src (firstPart part maxn)).1 = true)
    (hs : strnlen (s.check src (firstPart part maxn)).2 src (firstPart part maxn).toNat =
      (cnt, s')) :
    Looked mem mm s src (firstPart part maxn) cnt s' := by
  obtain ⟨mm', hmm, hsame⟩ := i.areas
  obtain ⟨mm'', hsame', hmm', hiff⟩ :=
    user_mem_check_spec hsame.2 src (firstPart part maxn) false
  have hok : (user_mem_check (some mm') src (firstPart part maxn) false).1 = true := by
    rw [← hmm]
    exact hp
  obtain ⟨hpos, -, htop, -⟩ := hiff.1 hok
  obtain ⟨s1, hs1⟩ : ∃ s1, (s.check src (firstPart part maxn)).2 = s1 := ⟨_, rfl⟩
  have hmem : s1.mem = s.mem := by
    rw [← hs1]
    rfl
  have hmm1 : s1.mm = some mm'' := by
    rw [← hs1, ← hmm', ← hmm]
    rfl
  have hlog : s1.log = .check src (firstPart part maxn) true :: s.log := by
    rw [← hs1]
    show Access.check src _ (s.check src _).1 :: s.log = _
    rw [hp]
  have hc : .check src (firstPart part maxn) true ∈ s1.log := by
    rw [hlog]
    exact List.mem_cons_self
  have hchecked : LoadsChecked s1.log := by
    rw [hlog]
    exact i.checked
  rw [hs1] at hs
  have hin : ∀ k < (firstPart part maxn).toNat,
      (src + BitVec.ofNat 32 k - src).toNat < (firstPart part maxn).toNat := by
    intro k hk
    have heq : src + BitVec.ofNat 32 k - src = BitVec.ofNat 32 k := by bv_omega
    rw [heq, BitVec.toNat_ofNat]
    exact Nat.lt_of_le_of_lt (Nat.mod_le _ _) hk
  obtain ⟨hle, hnz, hz⟩ := strnlen_cnt (s := s1) src (firstPart part maxn).toNat
  obtain ⟨hkept, hmm2, hsuff, hlog', hst⟩ :=
    strnlen_reads src (firstPart part maxn).toNat hchecked hc hin
  rw [hs] at hle hnz hz hkept hmm2 hsuff hlog' hst
  -- what the part shows are the program's bytes
  have huser : ∀ k < (firstPart part maxn).toNat,
      s1.mem (src + BitVec.ofNat 32 k) = mem (src + BitVec.ofNat 32 k) := by
    intro k hk
    rw [hmem]
    apply i.user
    have htop' : src.toNat + (firstPart part maxn).toNat ≤ 2 ^ 31 := htop
    bv_omega
  refine ⟨hpos, htop, hle, ?_, ?_, hkept.trans hmem, ⟨mm'', hmm2.trans hmm1, hsame.trans hsame'⟩,
    hlog', hsuff.subset hc, ?_⟩
  · intro k hk
    rw [← huser k (Nat.lt_of_lt_of_le hk hle)]
    exact hnz k hk
  · intro hlt
    rw [← huser cnt hlt]
    exact hz hlt
  · intro a ha
    have ha' := hst a ha
    rw [hlog] at ha'
    exact (List.mem_cons.1 ha').resolve_left (by simp)

/-- The program's bytes of the part go into the buffer. -/
theorem AtPart.copy_mem (i : AtPart mem mm s dst src maxn part)
    (l : Looked mem mm s src (firstPart part maxn) cnt s') {n : Nat}
    (hn : n ≤ (firstPart part maxn).toNat) (a : Word) :
    (memcpyBytes s' dst src n).mem a =
      if (a - dst).toNat < n then mem (src + (a - dst)) else s.mem a := by
  have htop := l.top
  have hroom := i.room
  have hbuf : 2 ^ 31 ≤ dst.toNat := i.buffer
  have hmax := firstPart_le part maxn
  have hout : ∀ k < n, n ≤ (src + BitVec.ofNat 32 k - dst).toNat := by
    intro k hk
    bv_omega
  rw [memcpyBytes_mem dst src n hout, l.kept]
  split
  · next hlt =>
    apply i.user
    bv_omega
  · rfl

theorem Looked.copy_log (l : Looked mem mm s src (firstPart part maxn) cnt s') (dst : Word)
    {n : Nat} (hn : n ≤ (firstPart part maxn).toNat) :
    (memcpyBytes s' dst src n).mm = s'.mm ∧ LoadsChecked (memcpyBytes s' dst src n).log ∧
      ∀ a, .store a ∈ (memcpyBytes s' dst src n).log → .store a ∈ s.log ∨ (a - dst).toNat < n := by
  have hin : ∀ k < n, (src + BitVec.ofNat 32 k - src).toNat < (firstPart part maxn).toNat := by
    intro k hk
    bv_omega
  obtain ⟨hmm, hok, hst⟩ := memcpyBytes_reads dst src n l.checked l.passed hin
  refine ⟨hmm, hok, ?_⟩
  intro a ha
  rcases hst a ha with ha | ⟨k, hk, rfl⟩
  · exact Or.inl (l.stores a ha)
  · right
    bv_omega

theorem NulAt.unique {n n' : Nat} (hn : NulAt mem src n) (hn' : NulAt mem src n') : n = n' := by
  apply le_antisymm
  · exact Nat.le_of_not_lt fun hlt => hn.2 n' hlt hn'.1
  · exact Nat.le_of_not_lt fun hlt => hn'.2 n hlt hn.1

theorem nulAt_rest (hnz : ∀ k < part.toNat, mem (src + BitVec.ofNat 32 k) ≠ 0#8) (n : Nat) :
    NulAt mem src (part.toNat + n) ↔ NulAt mem (src + part) n := by
  have haddr (k : Nat) :
      src + BitVec.ofNat 32 (part.toNat + k) = src + part + BitVec.ofNat 32 k := by
    rw [BitVec.ofNat_add, BitVec.ofNat_toNat, BitVec.setWidth_eq, BitVec.add_assoc]
  unfold NulAt
  rw [haddr]
  apply and_congr_right'
  constructor
  · intro hall k hk
    rw [← haddr]
    exact hall _ (Nat.add_lt_add_left hk _)
  · intro hall k hk
    rcases Nat.lt_or_ge k part.toNat with hlt | hge
    · exact hnz k hlt
    · obtain ⟨k, rfl⟩ := Nat.exists_eq_add_of_le hge
      rw [haddr]
      exact hall k (by omega)

/-- A part that is not the last ends with its page. -/
theorem AtPart.full (i : AtPart mem mm s dst src maxn part) (hne : firstPart part maxn ≠ maxn) :
    (firstPart part maxn).toNat = 4096 - src.toNat % 4096 ∧
      (maxn - firstPart part maxn).toNat = maxn.toNat - (firstPart part maxn).toNat := by
  have hle := firstPart_le part maxn
  have hne' : (firstPart part maxn).toNat ≠ maxn.toNat := fun he => hne (BitVec.eq_of_toNat_eq he)
  refine ⟨?_, BitVec.toNat_sub_of_le hle⟩
  rw [firstPart_toNat] at hne' ⊢
  rw [i.part] at hne' ⊢
  omega

/-- Up to the end of its first part the source has no further part. -/
theorem AtPart.partsPass_iff (h : ListOk mm) (i : AtPart mem mm s dst src maxn part)
    {n : Nat} (hn : n < (firstPart part maxn).toNat) :
    PartsPass mm src maxn.toNat n ↔ (s.check src (firstPart part maxn)).1 = true := by
  rw [i.check_iff h]
  constructor
  · intro hp
    have h0 := hp 0 (Nat.zero_le n) (Or.inl rfl)
    rw [BitVec.add_zero] at h0
    exact h0
  · intro hc o ho hcut
    have hpart := i.part
    rw [firstPart_toNat] at hn
    obtain rfl : o = 0 := by omega
    rw [BitVec.add_zero]
    exact hc

/-- From the second part on they are the parts of the rest. -/
theorem AtPart.partsPass_rest (h : ListOk mm) (i : AtPart mem mm s dst src maxn part)
    (l : Looked mem mm s src (firstPart part maxn) cnt s')
    (hp : (s.check src (firstPart part maxn)).1 = true)
    (hne : firstPart part maxn ≠ maxn) (n : Nat) :
    PartsPass mm src maxn.toNat ((firstPart part maxn).toNat + n) ↔
      PartsPass mm (src + firstPart part maxn) (maxn - firstPart part maxn).toNat n := by
  obtain ⟨hfull, hrest⟩ := i.full hne
  have htop := l.top
  have hsrc : (src + firstPart part maxn).toNat = src.toNat + (firstPart part maxn).toNat := by
    rw [BitVec.toNat_add, Nat.mod_eq_of_lt (by omega)]
  have haddr (o : Nat) : src + BitVec.ofNat 32 ((firstPart part maxn).toNat + o) =
      src + firstPart part maxn + BitVec.ofNat 32 o := by
    rw [BitVec.ofNat_add, BitVec.ofNat_toNat, BitVec.setWidth_eq, BitVec.add_assoc]
  have hlen (o : Nat) : partLen src maxn.toNat ((firstPart part maxn).toNat + o) =
      partLen (src + firstPart part maxn) (maxn - firstPart part maxn).toNat o := by
    unfold partLen
    rw [hsrc, hrest, Nat.add_assoc, Nat.sub_sub]
  constructor
  · intro hall o ho hcut
    rw [← haddr, ← hlen]
    refine hall _ (Nat.add_le_add_left ho _) (Or.inr ?_)
    rw [hsrc] at hcut
    omega
  · intro hall o ho hcut
    rcases Nat.eq_zero_or_pos o with rfl | hpos
    · rw [BitVec.add_zero]
      exact (i.check_iff h).1 hp
    · obtain ⟨o', rfl⟩ : ∃ o', o = (firstPart part maxn).toNat + o' :=
        Nat.exists_eq_add_of_le (by omega)
      rw [haddr, hlen]
      refine hall o' (by omega) (Or.inr ?_)
      rw [hsrc]
      omega

/-- The next turn starts with a page. -/
theorem AtPart.next (i : AtPart mem mm s dst src maxn part)
    (l : Looked mem mm s src (firstPart part maxn) cnt s') (hne : firstPart part maxn ≠ maxn) :
    AtPart mem mm (memcpyBytes s' dst src (firstPart part maxn).toNat)
      (dst + firstPart part maxn) (src + firstPart part maxn) (maxn - firstPart part maxn)
      PGSIZE := by
  obtain ⟨hfull, hrest⟩ := i.full hne
  obtain ⟨hmm, hok, -⟩ := l.copy_log dst (Nat.le_refl (firstPart part maxn).toNat)
  have hbuf : 2 ^ 31 ≤ dst.toNat := i.buffer
  have hroom := i.room
  have htop := l.top
  have hlt : (firstPart part maxn).toNat < maxn.toNat := by
    apply Nat.lt_of_le_of_ne (firstPart_le part maxn)
    exact fun he => hne (BitVec.eq_of_toNat_eq he)
  have hsrc : (src + firstPart part maxn).toNat = src.toNat + (firstPart part maxn).toNat := by
    rw [BitVec.toNat_add, Nat.mod_eq_of_lt (by omega)]
  have hdst : (dst + firstPart part maxn).toNat = dst.toNat + (firstPart part maxn).toNat := by
    rw [BitVec.toNat_add, Nat.mod_eq_of_lt (by omega)]
  refine ⟨?_, ?_, hok, ?_, ?_, ?_⟩
  · rw [hmm]
    exact l.areas
  · intro a ha
    have hout : ¬ (a - dst).toNat < (firstPart part maxn).toNat := by
      have ha' : a.toNat < 2 ^ 31 := ha
      bv_omega
    rw [i.copy_mem l (Nat.le_refl _), if_neg hout]
    exact i.user a ha
  · rw [hsrc, hfull]
    show 4096 = _
    omega
  · show 2 ^ 31 ≤ (dst + firstPart part maxn).toNat
    omega
  · rw [hdst, hrest]
    omega

/-- The loop, from any turn on. -/
theorem copyParts_ok (h : ListOk mm) (s : Copying) (dst src maxn part : Word) :
    AtPart mem mm s dst src maxn part →
      Copied mem mm s dst src maxn (copyParts s dst src maxn part) := by
  fun_induction copyParts s dst src maxn part with
  | case1 s dst src maxn part m hp cnt s' hs hlt =>
    intro i
    have l : Looked mem mm s src m cnt s' := i.looked hp hs
    have hmem (a : Word) := i.copy_mem l hlt a
    obtain ⟨-, hok, hst⟩ := l.copy_log dst (n := cnt + 1) hlt
    have hnul : NulAt mem src cnt := ⟨l.zero hlt, l.nonzero⟩
    have hmax : m.toNat ≤ maxn.toNat := firstPart_le part maxn
    refine ⟨iff_of_true rfl ?_, ?_, ?_, hok, ?_⟩
    · exact ⟨cnt, by omega, hnul, (i.partsPass_iff h hlt).2 hp⟩
    · intro _ n hn a
      obtain rfl := hn.unique hnul
      rw [hmem, if_congr Nat.lt_succ_iff rfl rfl]
    · intro a ha
      rw [hmem, if_neg (by omega)]
    · intro a ha
      exact (hst a ha).imp_right fun hlt' => by omega
  | case2 s dst src maxn part m hp cnt s' hs hlt hall =>
    intro i
    have l : Looked mem mm s src m cnt s' := i.looked hp hs
    refine ⟨iff_of_false Bool.false_ne_true ?_, fun hc => (Bool.false_ne_true hc).elim, ?_, l.checked,
      fun a ha => Or.inl (l.stores a ha)⟩
    · rintro ⟨n, hn, hnul, -⟩
      refine l.nonzero n ?_ hnul.1
      rw [← hall] at hn
      omega
    · intro a _
      show s'.mem a = s.mem a
      rw [l.kept]
  | case3 s dst src maxn part m hp cnt s' hs hlt hne ih =>
    intro i
    have l : Looked mem mm s src m cnt s' := i.looked hp hs
    have hcnt : cnt = m.toNat := le_antisymm l.le (Nat.le_of_not_lt hlt)
    have hrest : (maxn - m).toNat = maxn.toNat - m.toNat := (i.full hne).2
    have hmem (a : Word) := i.copy_mem l (Nat.le_refl m.toNat) a
    obtain ⟨-, -, hst⟩ := l.copy_log dst (Nat.le_refl m.toNat)
    have hnul (n : Nat) : NulAt mem src (m.toNat + n) ↔ NulAt mem (src + m) n := by
      apply nulAt_rest
      rw [← hcnt]
      exact l.nonzero
    have hparts (n : Nat) := i.partsPass_rest h l hp hne n
    have hmax : m.toNat ≤ maxn.toNat := firstPart_le part maxn
    have r := ih (i.next l hne)
    refine ⟨?_, ?_, ?_, r.checked, ?_⟩
    · rw [r.ends]
      constructor
      · rintro ⟨n, hn, hz, hpass⟩
        exact ⟨m.toNat + n, by omega, (hnul n).2 hz, (hparts n).2 hpass⟩
      · rintro ⟨n, hn, hz, hpass⟩
        have hge : m.toNat ≤ n := by
          apply Nat.le_of_not_lt
          intro hlt'
          exact l.nonzero n (by omega) hz.1
        obtain ⟨n, rfl⟩ := Nat.exists_eq_add_of_le hge
        exact ⟨n, by omega, (hnul n).1 hz, (hparts n).1 hpass⟩
    · intro hend n hz a
      obtain ⟨n', hn', hz', -⟩ := r.ends.1 hend
      obtain rfl := hz.unique ((hnul n').2 hz')
      rw [r.copied hend n' hz', hmem]
      have hsub : src + m + (a - (dst + m)) = src + (a - dst) := by bv_omega
      rw [hsub]
      by_cases ha : (a - dst).toNat < m.toNat
      · -- below the rest: the address before it wraps
        rw [if_pos ha, if_neg (by bv_omega), if_pos (by omega)]
      · rw [if_neg ha]
        have hle : (a - (dst + m)).toNat ≤ n' ↔ (a - dst).toNat ≤ m.toNat + n' := by bv_omega
        rw [if_congr hle rfl rfl]
    · intro a ha
      rw [r.kept a (by bv_omega), hmem, if_neg (by omega)]
    · intro a ha
      rcases r.stores a ha with ha | ha
      · exact (hst a ha).imp_right fun hlt' => by omega
      · right
        bv_omega
  | case4 s dst src maxn part m hp =>
    intro i
    refine ⟨iff_of_false Bool.false_ne_true ?_, fun hc => (Bool.false_ne_true hc).elim, fun a _ => rfl,
      i.checked, ?_⟩
    · rintro ⟨n, -, -, hparts⟩
      apply hp
      rw [i.check_iff h]
      have h0 := hparts 0 (Nat.zero_le n) (Or.inl rfl)
      rw [BitVec.add_zero] at h0
      exact h0
    · intro a ha
      exact Or.inl ((List.mem_cons.1 ha).resolve_left (by simp))

end

/-! ## The whole copy -/

theorem part_at_start (src : Word) :
    (ROUNDDOWN_2N (src + PGSIZE) PGSHIFT - src).toNat = 4096 - src.toNat % 4096 := by
  have hround := toNat_page (src + PGSIZE)
  have hsrc := src.isLt
  rw [BitVec.toNat_sub, hround, BitVec.toNat_add]
  show (2 ^ 32 - src.toNat + (src.toNat + 4096) % 2 ^ 32 / 4096 * 4096) % 2 ^ 32 = _
  omega

/-- `copy_string` succeeds when there is a NUL below the limit and every part up to it passes the
check. Then the buffer has the string with its NUL. In any case it writes below the limit only
and reads what was checked. The buffer is one of the kernel's, with room for `maxn` bytes. -/
theorem copy_string_exact (mem : Word → BitVec 8) (mm : Mm) (h : ListOk mm)
    (dst src maxn : Word) (hdst : KERNBASE ≤ dst) (hroom : dst.toNat + maxn.toNat ≤ 2 ^ 32) :
    ((copy_string mem (some mm) dst src maxn).1 = true ↔
      ∃ n < maxn.toNat, NulAt mem src n ∧ PartsPass mm src maxn.toNat n) ∧
    ((copy_string mem (some mm) dst src maxn).1 = true → ∀ n, NulAt mem src n → ∀ a,
      (copy_string mem (some mm) dst src maxn).2.mem a =
        if (a - dst).toNat ≤ n then mem (src + (a - dst)) else mem a) ∧
    (∀ a, maxn.toNat ≤ (a - dst).toNat →
      (copy_string mem (some mm) dst src maxn).2.mem a = mem a) ∧
    (∀ a, .store a ∈ (copy_string mem (some mm) dst src maxn).2.log →
      (a - dst).toNat < maxn.toNat) ∧
    LoadsChecked (copy_string mem (some mm) dst src maxn).2.log := by
  have hstart : AtPart mem mm ⟨mem, some mm, []⟩ dst src maxn
      (ROUNDDOWN_2N (src + PGSIZE) PGSHIFT - src) :=
    ⟨⟨mm, rfl, rfl, h⟩, fun a _ => rfl, trivial, part_at_start src, hdst, hroom⟩
  obtain ⟨hends, hcopied, hkept, hchecked, hstores⟩ := copyParts_ok h _ _ _ _ _ hstart
  refine ⟨hends, hcopied, hkept, ?_, hchecked⟩
  intro a ha
  exact (hstores a ha).resolve_left List.not_mem_nil

/-- A string whose NUL is the first byte of a page. -/
theorem copy_string_exact_threeAreas :
    (copy_string (fun a => if a = 0x10001000#32 then 0#8 else 65#8) (some threeAreas)
      0x80004000#32 0x10000FFE#32 16#32).1 = true := by
  have hcopy := copy_string_exact (fun a => if a = 0x10001000#32 then 0#8 else 65#8) threeAreas
    threeAreas_ok 0x80004000#32 0x10000FFE#32 16#32 (by decide) (by decide)
  rw [hcopy.1]
  refine ⟨2, by decide, ⟨by decide, by decide⟩, ?_⟩
  intro o ho hcut
  obtain rfl | rfl | rfl : o = 0 ∨ o = 1 ∨ o = 2 := by omega
  · decide +kernel
  · exact absurd hcut (by decide)
  · decide +kernel

end nehcpu.kernel
