-- References held in a finite set of slots, and how many slots refer to a thing.
import Mathlib.Data.Finset.Card

namespace nehcpu.refcount

variable {κ π : Type*} [DecidableEq π]

/-- The number of slots that hold a reference to `p`. -/
def refs (slots : Finset κ) (f : κ → Option π) (p : π) : Nat :=
  (slots.filter fun k => f k = some p).card

/-- One slot counts for one thing at most. -/
def holds (x : Option π) (p : π) : Nat := if x = some p then 1 else 0

@[simp] theorem holds_none (p : π) : holds none p = 0 := if_neg nofun

@[simp] theorem holds_self (p : π) : holds (some p) p = 1 := if_pos rfl

theorem holds_ne {p q : π} (h : q ≠ p) : holds (some q) p = 0 :=
  if_neg fun he => h (Option.some_inj.1 he)

variable {slots : Finset κ} {f g : κ → Option π}

theorem refs_congr (h : ∀ k ∈ slots, g k = f k) (p : π) : refs slots g p = refs slots f p := by
  unfold refs
  congr 1
  apply Finset.filter_congr
  intro k hk
  rw [h k hk]

theorem refs_pos {p : π} : 0 < refs slots f p ↔ ∃ k ∈ slots, f k = some p := by
  unfold refs
  rw [Finset.card_pos]
  constructor
  · rintro ⟨k, hk⟩
    exact ⟨k, Finset.mem_filter.1 hk⟩
  · rintro ⟨k, hk⟩
    exact ⟨k, Finset.mem_filter.2 hk⟩

theorem refs_eq_zero {p : π} : refs slots f p = 0 ↔ ∀ k ∈ slots, f k ≠ some p := by
  unfold refs
  rw [Finset.card_eq_zero, Finset.filter_eq_empty_iff]

/-- A slot and the others. -/
theorem refs_split [DecidableEq κ] {k : κ} (hk : k ∈ slots) (p : π) :
    refs slots f p = refs (slots.erase k) f p + holds (f k) p := by
  unfold refs holds
  rw [Finset.filter_erase]
  split
  · next he => exact (Finset.card_erase_add_one (Finset.mem_filter.2 ⟨hk, he⟩)).symm
  · next hne =>
    have hk : k ∉ slots.filter fun k => f k = some p := fun hm => hne (Finset.mem_filter.1 hm).2
    rw [Finset.erase_eq_of_notMem hk]
    rfl

theorem refs_insert [DecidableEq κ] {k : κ} (hk : k ∉ slots) (p : π) :
    refs (insert k slots) f p = refs slots f p + holds (f k) p := by
  rw [refs_split (Finset.mem_insert_self k slots), Finset.erase_insert hk]

/-- A change of one slot takes its old reference away and adds the new one. -/
theorem refs_set [DecidableEq κ] {k : κ} (hk : k ∈ slots) (h : ∀ k' ∈ slots, k' ≠ k → g k' = f k') (p : π) :
    refs slots g p + holds (f k) p = refs slots f p + holds (g k) p := by
  have hrest : refs (slots.erase k) g p = refs (slots.erase k) f p := by
    apply refs_congr
    intro k' hk'
    exact h k' (Finset.mem_of_mem_erase hk') (Finset.ne_of_mem_erase hk')
  rw [refs_split hk p, refs_split (f := f) hk p, hrest]
  omega

/-- More slots that are empty hold nothing more. -/
theorem refs_mono {more : Finset κ} (hs : slots ⊆ more) (h : ∀ k ∈ more, k ∉ slots → f k = none)
    (p : π) : refs more f p = refs slots f p := by
  have he : more.filter (fun k => f k = some p) = slots.filter fun k => f k = some p := by
    ext k
    rw [Finset.mem_filter, Finset.mem_filter]
    constructor
    · rintro ⟨hm, hf⟩
      refine ⟨?_, hf⟩
      by_contra hk
      rw [h k hm hk] at hf
      cases hf
    · rintro ⟨hk, hf⟩
      exact ⟨hs hk, hf⟩
  unfold refs
  rw [he]

/-- Slots that are cleared lose just what they held. -/
theorem refs_clear {P : κ → Prop} [DecidablePred P] (hg : ∀ k ∈ slots, P k → g k = none)
    (hf : ∀ k ∈ slots, ¬ P k → g k = f k) (p : π) :
    refs slots g p + refs (slots.filter P) f p = refs slots f p := by
  have hkept : slots.filter (fun k => g k = some p) =
      (slots.filter fun k => f k = some p).filter fun k => ¬ P k := by
    ext k
    rw [Finset.mem_filter, Finset.mem_filter, Finset.mem_filter]
    constructor
    · rintro ⟨hk, he⟩
      have hn : ¬ P k := by
        intro hp
        rw [hg k hk hp] at he
        cases he
      exact ⟨⟨hk, (hf k hk hn).symm.trans he⟩, hn⟩
    · rintro ⟨⟨hk, he⟩, hn⟩
      exact ⟨hk, (hf k hk hn).trans he⟩
  have hcleared : (slots.filter P).filter (fun k => f k = some p) =
      (slots.filter fun k => f k = some p).filter P := by
    rw [Finset.filter_comm]
  unfold refs
  rw [hkept, hcleared, Nat.add_comm]
  exact Finset.card_filter_add_card_filter_not P

end nehcpu.refcount
