-- Blocks added at the end of a file one after the other, up to an index that the limit of the file
-- size allows: which block each index gets, what a lookup and a truncation do afterwards, and from
-- which index on the block map has no entry.
import Mathlib.Order.Interval.Finset.Nat
import Nehcpu.Kernel.SfsFile

namespace nehcpu.kernel.fs

open Function nehcpu.command nehcpu.command.Cmd nehcpu.buffer

/-! ## Appending -/

/-- `sfs_bmap_load_nolock` at the end of the file, again and again, with the blocks that it gives. -/
def appendBlocks (env : Around) (index : Nat) : Nat → SfsM (List Nat)
  | 0 => pure []
  | n + 1 => do
    let ino ← sfs_bmap_load_nolock (env.dop_io index) (env.ino index) index
    let inos ← appendBlocks env (index + 1) n
    pure (ino :: inos)

/-- What `c` is after blocks were added: `bs` has the blocks of the file, the old and the new
ones, and `inos` the new ones. -/
structure Appended (held : Nat → Prop) (c t : Call) (inos bs : List Nat) : Prop where
  added : bs = (List.range c.blocks).map (bmap c) ++ inos
  count : t.blocks = bs.length
  nodup : bs.Nodup
  own : ∀ b ∈ bs, b ≠ 0 ∧ b < t.sfs.super.blocks ∧ b ∉ t.free ∧ ¬ held b ∧
    b ≠ t.sin.din.indirect
  /-- Each lookup gives the block again. -/
  lookup : ∀ env : Around, env.Quiet → ∀ i (hi : i < bs.length),
    sfs_bmap_load_nolock (env.dop_io i) (env.ino i) i t = .ok bs[i] t
  /-- A truncation to the old length frees the new blocks. -/
  truncate : ∀ env : Around, env.Quiet → ∃ u, sfs_shrink env inos.length t = .ok () u ∧
    u.blocks = c.blocks ∧ ∀ b, b ∈ u.free ↔ b ∈ t.free ∨ b ∈ inos

/-- Blocks can be added up to the index: nothing fails, and what stands in a variable before it is
set makes no difference. -/
def AppendsUpTo (held : Nat → Prop) (c : Call) (index : Nat) : Prop :=
  ∃ inos bs t, bs.length = index + 1 ∧ Appended held c t inos bs ∧
    ∀ env : Around, env.Quiet → appendBlocks env c.blocks (index + 1 - c.blocks) c = .ok inos t

/-! ## Below `MAX_MAPPED` -/

/-- The variable that is not set is only used past the indirect block. -/
theorem load_garbage {dop_io : Access → Int} {i : Nat} (hi : i < MAX_MAPPED) (g g' : Nat) :
    sfs_bmap_load_nolock dop_io g i = sfs_bmap_load_nolock dop_io g' i := by
  have hget (create : Bool) :
      sfs_bmap_get_nolock dop_io g i create = sfs_bmap_get_nolock dop_io g' i create := by
    unfold sfs_bmap_get_nolock
    by_cases hd : i < SFS_NDIRECT
    · simp only [hd, if_true]
    · have hk : i - SFS_NDIRECT < SFS_BLK_NENTRY := by
        unfold MAX_MAPPED at hi
        omega
      simp only [hd, hk, if_true, if_false]
  unfold sfs_bmap_load_nolock
  simp only [hget]

theorem appendBlocks_quiet {env : Around} (h : env.Quiet) (i n : Nat) (hn : i + n ≤ MAX_MAPPED) :
    appendBlocks env i n = appendBlocks quiet i n := by
  induction n generalizing i with
  | zero => rfl
  | succ n ih =>
    have hdop : env.dop_io i = quiet.dop_io i := funext fun a => h i a
    unfold appendBlocks
    rw [hdop, load_garbage (by omega) (env.ino i) (quiet.ino i), ih (i + 1) (by omega)]

/-- The need of the blocks that are left to add. -/
theorem Grown.need_rest {held : Nat → Prop} {c t : Call} {b n : Nat} (hg : Grown held c t b)
    (hn : c.blocks < n) : need c n = need c (c.blocks + 1) + need t n := by
  have hbl := hg.blocks
  have hind := hg.indirect
  unfold need
  by_cases h0 : c.sin.din.indirect = 0
  · by_cases hd : c.blocks < SFS_NDIRECT
    · have ht : t.sin.din.indirect = 0 := hind.2 ⟨h0, hd⟩
      simp only [h0, ht, true_and]
      split <;> split <;> omega
    · have ht : ¬ t.sin.din.indirect = 0 := fun ht => hd (hind.1 ht).2
      simp only [h0, ht, true_and, false_and, if_false]
      split <;> split <;> omega
  · have ht : ¬ t.sin.din.indirect = 0 := fun ht => h0 (hind.1 ht).1
    simp only [h0, ht, false_and, if_false]
    omega

/-- The blocks of `t` are those of `c` and the new ones. -/
structure Added (held : Nat → Prop) (c t : Call) (inos : List Nat) : Prop where
  mapped : Mapped held t
  blocks : (List.range t.blocks).map (bmap t) = (List.range c.blocks).map (bmap c) ++ inos

section

variable {held : Nat → Prop} {c t : Call} {inos : List Nat}

theorem Added.count (h : Added held c t inos) : t.blocks = c.blocks + inos.length := by
  have hlen := congrArg List.length h.blocks
  simpa using hlen

/-- The new blocks are those from the old end on. -/
theorem Added.mem_iff (h : Added held c t inos) (b : Nat) :
    b ∈ inos ↔ ∃ i, c.blocks ≤ i ∧ i < t.blocks ∧ bmap t i = b := by
  have hcount := h.count
  have hsplit := h.blocks
  rw [hcount, List.range_add, List.map_append, List.map_map] at hsplit
  obtain ⟨-, hinos⟩ := List.append_inj hsplit (by simp)
  rw [← hinos, List.mem_map]
  constructor
  · rintro ⟨j, hj, rfl⟩
    have hj := List.mem_range.1 hj
    exact ⟨c.blocks + j, Nat.le_add_right _ _, by omega, rfl⟩
  · rintro ⟨i, hi, hi', rfl⟩
    obtain ⟨j, rfl⟩ := Nat.exists_eq_add_of_le hi
    exact ⟨j, List.mem_range.2 (by omega), rfl⟩

theorem grown_blocks {b : Nat} (hg : Grown held c t b) (hlt : c.blocks < MAX_MAPPED) :
    (List.range t.blocks).map (bmap t) = (List.range c.blocks).map (bmap c) ++ [b] := by
  rw [hg.blocks, List.range_succ, List.map_append, List.map_singleton, hg.bmap _ hlt, if_pos rfl]
  congr 1
  apply List.map_congr_left
  intro i hi
  have hi := List.mem_range.1 hi
  rw [hg.bmap i (by omega), if_neg (by omega)]

/-- One block more at the end, where there is room for all. -/
theorem wp_append (env : Around) (henv : env.Quiet) (n : Nat) (h : Mapped held c)
    (hn : c.blocks + n ≤ MAX_MAPPED) (hroom : need c (c.blocks + n) ≤ c.free.card) :
    Wp (appendBlocks env c.blocks n)
      (fun inos t => Added held c t inos ∧ inos.length = n) (fun _ _ => False) False c := by
  induction n generalizing c with
  | zero => exact ⟨⟨h, (List.append_nil _).symm⟩, rfl⟩
  | succ n ih =>
    unfold appendBlocks
    rw [wp_bind]
    apply Wp.mono (wp_load_new h (by omega) (henv _ _) (henv _ _)) _ _ id
    · rintro b t ⟨hg, -⟩
      have hbl := hg.blocks
      have hrest := hg.need_rest (n := c.blocks + (n + 1)) (by omega)
      have hfree := hg.free
      have htotal : t.blocks + n = c.blocks + (n + 1) := by omega
      rw [wp_bind, ← hbl]
      apply Wp.mono (ih hg.mapped (by omega) (by rw [htotal]; omega)) _ (fun _ _ he => he) id
      rintro inos u ⟨hadd, hlen⟩
      rw [wp_pure]
      refine ⟨⟨hadd.mapped, ?_⟩, ?_⟩
      · rw [hadd.blocks, grown_blocks hg (by omega), List.append_assoc, List.singleton_append]
      · rw [List.length_cons, hlen]
    · rintro e t ⟨-, hlow | ⟨a, ha⟩⟩
      · have hle : need c (c.blocks + 1) ≤ need c (c.blocks + (n + 1)) := by
          unfold need
          split <;> split <;> omega
        omega
      · exact ha (henv _ _)

/-- The file without its last `k` blocks, which are free. -/
structure Cut (held : Nat → Prop) (c : Call) (k : Nat) (u : Call) : Prop where
  mapped : Mapped held u
  blocks : u.blocks + k = c.blocks
  bmap : ∀ i < u.blocks, bmap u i = bmap c i
  free : ∀ b, b ∈ u.free ↔
    b ∈ c.free ∨ ∃ i, u.blocks ≤ i ∧ i < c.blocks ∧ nehcpu.kernel.fs.bmap c i = b

/-- One block less. -/
theorem Cut.step {u v : Call} {k : Nat} (h : Cut held c k u) (hs : Shrunk held u v) :
    Cut held c (k + 1) v := by
  have hbl := hs.blocks
  have hcount := h.blocks
  refine ⟨hs.mapped, by omega, ?_, ?_⟩
  · intro i hi
    rw [hs.bmap i hi, h.bmap i (by omega)]
  · intro b
    rw [hs.free, Finset.mem_insert, h.free, h.bmap _ (by omega)]
    constructor
    · rintro (rfl | hb | ⟨i, hi, hi', rfl⟩)
      · exact Or.inr ⟨v.blocks, le_rfl, by omega, rfl⟩
      · exact Or.inl hb
      · exact Or.inr ⟨i, by omega, hi', rfl⟩
    · rintro (hb | ⟨i, hi, hi', rfl⟩)
      · exact Or.inr (Or.inl hb)
      · rcases Nat.eq_or_lt_of_le hi with rfl | hlt
        · exact Or.inl rfl
        · exact Or.inr (Or.inr ⟨i, by omega, hi', rfl⟩)

/-- The last blocks of a file, one after the other. -/
theorem wp_cut (env : Around) (henv : env.Quiet) (n : Nat) (h : Mapped held c)
    (hn : n ≤ c.blocks) :
    Wp (sfs_shrink env n) (fun _ u => Cut held c n u) (fun _ _ => False) False c := by
  have hloop : Wp (sfs_shrink env n) (fun _ u => Cut held c (0 + n) u) (fun _ _ => False) False
      c := by
    apply wp_countUp (I := fun k u => Cut held c k u)
    · refine ⟨h, rfl, fun _ _ => rfl, fun b => ⟨Or.inl, ?_⟩⟩
      rintro (hb | ⟨i, hi, hi', -⟩)
      · exact hb
      · exact absurd hi' (Nat.not_lt.2 hi)
    · intro k u _ hk hu
      have hcount := hu.blocks
      apply Wp.mono (wp_truncate hu.mapped (by omega)) _ _ id
      · intro _ v hs
        exact hu.step hs
      · rintro e v ⟨-, a, ha⟩
        exact ha (henv _ _)
  rw [Nat.zero_add] at hloop
  exact hloop

theorem Added.appended (h : Added held c t inos) :
    Appended held c t inos ((List.range t.blocks).map (bmap t)) := by
  have hm := h.mapped
  have hcount := h.count
  refine ⟨h.blocks, by simp, (List.nodup_append.1 hm.ledger.nodup).2.1, ?_, ?_, ?_⟩
  · intro b hb
    obtain ⟨i, hi, rfl⟩ := List.mem_map.1 hb
    have hi := List.mem_range.1 hi
    obtain ⟨h0, hlt, hfree, hheld⟩ := hm.block (mem_layout hi)
    exact ⟨h0, hlt, hfree, hheld, hm.ne_indirect hi⟩
  · intro env henv i hi
    have hlt : i < t.blocks := by simpa using hi
    have hw : Wp (sfs_bmap_load_nolock (env.dop_io i) (env.ino i) i)
        (fun b u => u = t ∧ b = bmap t i) (fun _ _ => False) False t := by
      apply Wp.mono (wp_load_old hm hlt) (fun _ _ hq => hq) _ id
      exact fun _ _ hne => hne.2.2 (hne.2.1.trans (henv _ _))
    obtain ⟨b, u, hrun, rfl, rfl⟩ := Wp.runs hw
    rw [hrun, List.getElem_map, List.getElem_range]
  · intro env henv
    obtain ⟨⟨⟩, u, hrun, hcut⟩ := Wp.runs (wp_cut env henv inos.length hm (by omega))
    have hbl := hcut.blocks
    refine ⟨u, hrun, by omega, ?_⟩
    intro b
    rw [hcut.free]
    apply or_congr_right
    rw [h.mem_iff]
    have hlow : u.blocks = c.blocks := by omega
    rw [hlow]

/-! ## From `MAX_MAPPED` on -/

/-- With a zero in the variable no block is found at the end of the map, and the assertion
fails. -/
theorem wp_load_past (hc : c.blocks = MAX_MAPPED) (dop_io : Access → Int)
    {Q : Nat → Call → Prop} {E : Int → Call → Prop} :
    Wp (sfs_bmap_load_nolock dop_io 0 c.blocks) Q E True c := by
  have hd : ¬ MAX_MAPPED < SFS_NDIRECT := by decide
  have hk : ¬ MAX_MAPPED - SFS_NDIRECT < SFS_BLK_NENTRY := by decide
  unfold sfs_bmap_load_nolock sfs_bmap_get_nolock mapped assert_inuse sfs_block_inuse
  simp only [wp_bind, wp_get, wp_check, wp_ite, wp_pure, hc, hd, hk, if_false, if_true, ne_eq,
    not_true_eq_false, false_and, le_refl]

/-- The rounds go on up to the end of the map and no further. -/
theorem wp_append_past (n : Nat) (h : Mapped held c) (hn : MAX_MAPPED < c.blocks + n)
    (hroom : need c MAX_MAPPED ≤ c.free.card) :
    Wp (appendBlocks quiet c.blocks n) (fun _ _ => False) (fun _ _ => False) True c := by
  induction n generalizing c with
  | zero => exact absurd h.bound (Nat.not_le.2 hn)
  | succ n ih =>
    unfold appendBlocks
    rw [wp_bind]
    rcases Nat.lt_or_eq_of_le h.bound with hlt | hc
    · apply Wp.mono (wp_load_new h hlt rfl rfl) _ _ id
      · rintro b t ⟨hg, -⟩
        have hbl := hg.blocks
        have hrest := hg.need_rest hlt
        have hfree := hg.free
        rw [wp_bind, ← hbl]
        apply Wp.mono (ih hg.mapped (by omega) (by omega)) _ (fun _ _ he => he) id
        exact fun _ _ hf => hf.elim
      · rintro e t ⟨-, hlow | ⟨a, ha⟩⟩
        · have hle : need c (c.blocks + 1) ≤ need c MAX_MAPPED := by
            unfold need
            split <;> split <;> omega
          omega
        · exact ha rfl
    · exact wp_load_past hc _

theorem append_past (n : Nat) (h : Mapped held c) (hn : MAX_MAPPED < c.blocks + n)
    (hroom : need c MAX_MAPPED ≤ c.free.card) : appendBlocks quiet c.blocks n c = .stop := by
  have hw := wp_append_past n h hn hroom
  unfold Wp at hw
  cases hrun : appendBlocks quiet c.blocks n c with
  | ok a t =>
    rw [hrun] at hw
    exact hw.elim
  | fail e t =>
    rw [hrun] at hw
    exact hw.elim
  | stop => rfl

/-- Blocks can be added up to an index exactly where the direct entries and the indirect block
reach it. -/
theorem appendsUpTo_iff (held : Nat → Prop) (c : Call) (index : Nat) (h : Mapped held c)
    (hc : c.blocks ≤ index) (hroom : need c (index + 1) ≤ c.free.card) :
    AppendsUpTo held c index ↔ index < SFS_NDIRECT + SFS_BLK_NENTRY := by
  have hmax : MAX_MAPPED = SFS_NDIRECT + SFS_BLK_NENTRY := rfl
  rw [← hmax]
  constructor
  · rintro ⟨inos, bs, t, -, -, hrun⟩
    apply Nat.lt_of_not_le
    intro hge
    have hlow : need c MAX_MAPPED ≤ need c (index + 1) := by
      unfold need
      split <;> split <;> omega
    have hstop := append_past (index + 1 - c.blocks) h (by omega) (by omega)
    rw [hrun quiet fun _ _ => rfl] at hstop
    cases hstop
  · intro hlt
    have htotal : c.blocks + (index + 1 - c.blocks) = index + 1 := by omega
    have hw := wp_append quiet (fun _ _ => rfl) (index + 1 - c.blocks) h (by omega)
      (by rw [htotal]; exact hroom)
    obtain ⟨inos, t, hrun, hadd, hlen⟩ := Wp.runs hw
    have happ := hadd.appended
    refine ⟨inos, _, t, ?_, happ, ?_⟩
    · rw [← happ.count, hadd.count]
      omega
    · intro env henv
      rw [appendBlocks_quiet henv _ _ (by omega)]
      exact hrun

end

theorem appendsUpTo_iff_oneByte : AppendsUpTo (· < 4) oneByte 2 := by
  have hiff := appendsUpTo_iff (· < 4) oneByte 2 oneByte_isArray.mapped (by decide)
    (by decide +kernel)
  exact hiff.2 (by decide)

/-- An empty file on a disk of eight megabytes. -/
def wideDisk : Call where
  sfs :=
    { super := ⟨2048, 2044⟩
      super_dirty := false
      freemap := ⟨32768, 1024, fun w =>
        if w = 0 then 0xFFFFFFF0#32 else if w < 64 then BitVec.allOnes 32 else 0#32⟩
      disk := fun _ => Buffer.zero }
  sin := ⟨⟨0, SFS_TYPE_FILE, 1, 0, fun _ => 0, 0⟩, 3, true⟩

theorem wideDisk_free : wideDisk.free = Finset.Ico 4 2048 := by
  ext b
  have hlow : ∀ b < 32, (0xFFFFFFF0#32).getLsbD b = decide (4 ≤ b) := by decide
  rw [Call.mem_free, Finset.mem_Ico]
  show b < 32768 ∧ (if b / 32 = 0 then 0xFFFFFFF0#32 else if b / 32 < 64 then BitVec.allOnes 32
    else 0#32).getLsbD (b % 32) = true ↔ 4 ≤ b ∧ b < 2048
  split
  · next h0 =>
    have hb : b % 32 = b := Nat.mod_eq_of_lt (by omega)
    rw [hb, hlow b (by omega), decide_eq_true_iff]
    omega
  · split
    · rw [BitVec.getLsbD_allOnes, decide_eq_true_iff]
      omega
    · rw [BitVec.getLsbD_zero]
      simp only [Bool.false_eq_true, and_false, false_iff]
      omega

theorem wideDisk_mapped : Mapped (· < 4) wideDisk where
  free := by
    refine ⟨rfl, by decide, by decide, ?_, ?_⟩
    · intro b hb
      rw [wideDisk_free, Finset.mem_Ico] at hb
      exact ⟨by omega, hb.2⟩
    · rw [wideDisk_free, Nat.card_Ico]
      rfl
  ledger := by
    have hlayout : layout wideDisk = [] := rfl
    rw [hlayout]
    refine ⟨List.nodup_nil, fun b hb => (List.not_mem_nil hb).elim,
      fun b hb => (List.not_mem_nil hb).elim, ?_, ?_⟩
    · intro b hb
      rw [wideDisk_free, Finset.mem_Ico] at hb
      exact Nat.not_lt.2 hb.1
    · intro b hb
      have hb : b < 2048 := hb
      rw [wideDisk_free, Finset.mem_Ico]
      omega
  bound := by decide
  none := by
    intro i _ _
    unfold bmap
    split <;> rfl
  zero := by decide
  own := by decide

/-- One block more than the map has, far below the limit of the file size. -/
theorem not_appendsUpTo : ∃ held c index, Mapped held c ∧ c.blocks ≤ index ∧
    index < SFS_MAX_FILE_SIZE / SFS_BLKSIZE ∧ need c (index + 1) ≤ c.free.card ∧
      ¬ AppendsUpTo held c index := by
  refine ⟨(· < 4), wideDisk, 1036, wideDisk_mapped, by decide, by decide, ?_, ?_⟩
  · rw [wideDisk_free, Nat.card_Ico]
    decide
  · rintro ⟨inos, bs, t, -, -, hrun⟩
    have hstop := append_past 1037 wideDisk_mapped (by decide) (by
      rw [wideDisk_free, Nat.card_Ico]
      decide)
    have hok := hrun quiet fun _ _ => rfl
    cases hok.symm.trans hstop

end nehcpu.kernel.fs
