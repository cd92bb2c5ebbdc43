-- The stack frames of the functions: `MipsFrameManager.java`, `OffsetCounter.java` and the prolog, and
-- where the words of all frames stand while functions call one another.
import Nehcpu.Decaf.RegAllocOk

open Function

namespace nehcpu.decaf

/-! ## Counters -/

inductive OffsetKind
  | LOCAL | PARAMETER | VARFIELD
deriving DecidableEq

def OffsetKind.initValue : OffsetKind → Int
  | .LOCAL => -2 * 4
  | .PARAMETER => 4
  | .VARFIELD => 4

def OffsetKind.direction : OffsetKind → Int
  | .LOCAL => -1
  | .PARAMETER => 1
  | .VARFIELD => 1

structure OffsetCounter where
  kind : OffsetKind
  value : Int

/-- A counter after `reset`. -/
def OffsetCounter.start (kind : OffsetKind) : OffsetCounter := ⟨kind, kind.initValue⟩

/-- `next`: the counter behind the value, and the value. -/
def OffsetCounter.next (c : OffsetCounter) (size : Int) : OffsetCounter × Int :=
  ({ c with value := c.value + c.kind.direction * size }, c.value)

/-- The counter after `n` words. -/
def OffsetCounter.afterWords (c : OffsetCounter) : Nat → OffsetCounter
  | 0 => c
  | n + 1 => ((c.next 4).1).afterWords n

theorem OffsetCounter.afterWords_value (c : OffsetCounter) (n : Nat) :
    (c.afterWords n).value = c.value + c.kind.direction * 4 * n := by
  induction n generalizing c with
  | zero => simp [afterWords]
  | succ n ih =>
    rw [afterWords, ih]
    show c.value + c.kind.direction * 4 + c.kind.direction * 4 * n = _
    push_cast
    cases c.kind <;> simp only [OffsetKind.direction] <;> omega

/-- The offset from `$fp` of the `k`-th parameter, as `visitMethodDef` counts them. -/
def parameterOffset (k : Nat) : Int := ((OffsetCounter.start .PARAMETER).afterWords k).value

theorem parameterOffset_eq (k : Nat) : parameterOffset k = 4 + 4 * k := by
  unfold parameterOffset
  rw [OffsetCounter.afterWords_value]
  simp [OffsetCounter.start, OffsetKind.initValue, OffsetKind.direction]

/-! ## The frame manager -/

/-- The fields of `MipsFrameManager`, the counter of the slots and `temp.offset`, which is none before
it is fixed. -/
structure FrameManager where
  maxSize : Int
  currentSize : Int
  maxActualSize : Int
  currentActualSize : Int
  counter : OffsetCounter
  offset : Temp → Option Int

namespace FrameManager

/-- `reset`. The offsets of the parameters are fixed before. -/
def reset (fixed : Temp → Option Int) : FrameManager where
  maxSize := 0
  currentSize := 0
  maxActualSize := 4
  currentActualSize := 4
  counter := .start .LOCAL
  offset := fixed

variable (m : FrameManager)

/-- `findSlot`: every temp takes four bytes. -/
def findSlot (t : Temp) : FrameManager :=
  match m.offset t with
  | some _ => m
  | none =>
    let (counter, offset) := m.counter.next 4
    let currentSize := m.currentSize + 4
    { m with
      offset := update m.offset t (some offset)
      counter := counter
      currentSize := currentSize
      maxSize := if currentSize > m.maxSize then currentSize else m.maxSize }

def addActual : FrameManager × Int :=
  ({ m with currentActualSize := m.currentActualSize + 4 }, m.currentActualSize)

def finishActual : FrameManager :=
  { m with
    maxActualSize :=
      if m.currentActualSize > m.maxActualSize then m.currentActualSize else m.maxActualSize
    currentActualSize := 4 }

def getStackFrameSize : Int := m.maxSize + m.maxActualSize

end FrameManager

/-! ## The calls of the allocator -/

/-- What the allocator asks of the frame manager: a slot, the place of a PARM, and at a CALL the end of
its arguments. -/
inductive FrameOp
  | findSlot (t : Temp)
  | addActual
  | finishActual
deriving DecidableEq

/-- The frame manager with the offsets that the PARMs have got since the last CALL, and those of the
CALLs before. -/
structure Laying where
  manager : FrameManager
  pending : List Int
  calls : List (List Int)

def Laying.step (l : Laying) : FrameOp → Laying
  | .findSlot t => { l with manager := l.manager.findSlot t }
  | .addActual =>
    let (manager, offset) := l.manager.addActual
    { l with manager := manager, pending := l.pending ++ [offset] }
  | .finishActual =>
    { manager := l.manager.finishActual, pending := [], calls := l.calls ++ [l.pending] }

def Laying.start (fixed : Temp → Option Int) : Laying := ⟨.reset fixed, [], []⟩

/-- The arguments of a call, from the first one on. -/
def argOffsets (n : Nat) : List Int := (List.range n).map fun (k : Nat) => 4 + 4 * (k : Int)

theorem argOffsets_succ (n : Nat) : argOffsets (n + 1) = argOffsets n ++ [4 + 4 * (n : Int)] := by
  simp [argOffsets, List.range_succ]

@[simp] theorem argOffsets_length (n : Nat) : (argOffsets n).length = n := by simp [argOffsets]

/-- What holds after any calls of the allocator: the slots stand one under the other in the order of
their numbers, and the arguments one over the other. -/
structure LayingOk (fixed : Temp → Option Int) (l : Laying) : Prop where
  size : l.manager.currentSize = l.manager.maxSize
  nonneg : 0 ≤ l.manager.maxSize
  kind : l.manager.counter.kind = .LOCAL
  next : l.manager.counter.value = -8 - l.manager.maxSize
  keeps : ∀ t o, fixed t = some o → l.manager.offset t = some o
  slot : ∀ t o, l.manager.offset t = some o → fixed t = none →
    -4 - l.manager.maxSize ≤ o ∧ o ≤ -8
  slots : ∀ t u o p, l.manager.offset t = some o → l.manager.offset u = some p → fixed t = none →
    fixed u = none → t ≠ u → o + 4 ≤ p ∨ p + 4 ≤ o
  pending : l.pending = argOffsets l.pending.length
  actual : l.manager.currentActualSize = 4 + 4 * l.pending.length
  base : 4 ≤ l.manager.maxActualSize
  calls : ∀ call ∈ l.calls, call = argOffsets call.length ∧
    4 + 4 * (call.length : Int) ≤ l.manager.maxActualSize

section

variable {fixed : Temp → Option Int} {l : Laying}

theorem LayingOk.start (fixed : Temp → Option Int) : LayingOk fixed (.start fixed) := by
  constructor
  · rfl
  · exact Int.le_refl 0
  · rfl
  · rfl
  · exact fun _ _ h => h
  · intro t o h hf
    rw [show (Laying.start fixed).manager.offset t = fixed t from rfl, hf] at h
    cases h
  · intro t u o p h _ hf
    rw [show (Laying.start fixed).manager.offset t = fixed t from rfl, hf] at h
    cases h
  · rfl
  · rfl
  · exact Int.le_refl 4
  · intro call h
    cases h

/-- A new slot stands under the others. -/
theorem LayingOk.findSlot (h : LayingOk fixed l) (t : Temp) :
    LayingOk fixed { l with manager := l.manager.findSlot t } := by
  unfold FrameManager.findSlot
  cases ht : l.manager.offset t with
  | some o => exact h
  | none =>
    have hfix : fixed t = none := by
      cases hf : fixed t with
      | none => rfl
      | some o => rw [h.keeps t o hf] at ht; cases ht
    have hsize := h.size
    have hnext := h.next
    have hnon := h.nonneg
    have hnew : (if l.manager.currentSize + 4 > l.manager.maxSize then l.manager.currentSize + 4
        else l.manager.maxSize) = l.manager.maxSize + 4 := by
      rw [if_pos (by omega)]
      omega
    simp only [OffsetCounter.next, hnew]
    constructor
    · show l.manager.currentSize + 4 = l.manager.maxSize + 4
      omega
    · show 0 ≤ l.manager.maxSize + 4
      omega
    · exact h.kind
    · show l.manager.counter.value + l.manager.counter.kind.direction * 4 = -8 - (l.manager.maxSize + 4)
      rw [h.kind]
      simp only [OffsetKind.direction]
      omega
    · intro u o hu
      have hne : u ≠ t := by
        rintro rfl
        rw [hfix] at hu
        cases hu
      show update l.manager.offset t _ u = some o
      rw [update_of_ne hne]
      exact h.keeps u o hu
    · intro u o hu hf
      have hu' : update l.manager.offset t (some l.manager.counter.value) u = some o := hu
      show -4 - (l.manager.maxSize + 4) ≤ o ∧ o ≤ -8
      by_cases hut : u = t
      · rw [hut, update_self] at hu'
        obtain rfl := Option.some_inj.mp hu'
        omega
      · rw [update_of_ne hut] at hu'
        have := h.slot u o hu' hf
        omega
    · intro u v o p hu hv hfu hfv huv
      have hu' : update l.manager.offset t (some l.manager.counter.value) u = some o := hu
      have hv' : update l.manager.offset t (some l.manager.counter.value) v = some p := hv
      by_cases hut : u = t
      · rw [hut, update_self] at hu'
        obtain rfl := Option.some_inj.mp hu'
        rw [update_of_ne (by rintro rfl; exact huv hut)] at hv'
        have := h.slot v p hv' hfv
        omega
      · rw [update_of_ne hut] at hu'
        by_cases hvt : v = t
        · rw [hvt, update_self] at hv'
          obtain rfl := Option.some_inj.mp hv'
          have := h.slot u o hu' hfu
          omega
        · rw [update_of_ne hvt] at hv'
          exact h.slots u v o p hu' hv' hfu hfv huv
    · exact h.pending
    · exact h.actual
    · exact h.base
    · exact h.calls

/-- The next argument stands over the others. -/
theorem LayingOk.addActual (h : LayingOk fixed l) : LayingOk fixed (l.step .addActual) := by
  refine ⟨h.size, h.nonneg, h.kind, h.next, h.keeps, h.slot, h.slots, ?_, ?_, h.base, h.calls⟩
  · show l.pending ++ [l.manager.currentActualSize] = argOffsets (l.pending ++ [_]).length
    rw [List.length_append, List.length_singleton, argOffsets_succ, ← h.pending, h.actual]
  · show l.manager.currentActualSize + 4 = 4 + 4 * ((l.pending ++ [_]).length : Int)
    rw [List.length_append, List.length_singleton, h.actual]
    push_cast
    omega

theorem LayingOk.finishActual (h : LayingOk fixed l) : LayingOk fixed (l.step .finishActual) := by
  have hact := h.actual
  have hbase := h.base
  refine ⟨h.size, h.nonneg, h.kind, h.next, h.keeps, h.slot, h.slots, rfl, rfl, ?_, ?_⟩
  · show 4 ≤ if _ > _ then _ else _
    split <;> omega
  · intro call hcall
    show call = argOffsets call.length ∧ 4 + 4 * (call.length : Int) ≤ if _ > _ then _ else _
    rcases List.mem_append.mp hcall with hcall | hcall
    · have hold := h.calls call hcall
      refine ⟨hold.1, ?_⟩
      split <;> omega
    · rw [List.mem_singleton] at hcall
      subst hcall
      refine ⟨h.pending, ?_⟩
      split <;> omega

theorem LayingOk.step (h : LayingOk fixed l) (op : FrameOp) : LayingOk fixed (l.step op) := by
  cases op with
  | findSlot t => exact h.findSlot t
  | addActual => exact h.addActual
  | finishActual => exact h.finishActual

theorem LayingOk.run (h : LayingOk fixed l) (ops : List FrameOp) :
    LayingOk fixed (ops.foldl Laying.step l) := by
  induction ops generalizing l with
  | nil => exact h
  | cons op ops ih => exact ih (h.step op)

end

/-! ## The allocator goes through the frame manager -/

/-- The state of the allocator says of slots and arguments what the frame manager says. -/
structure Agrees {k : Nat} (s : AllocState k) (m : FrameManager) : Prop where
  offset : s.offset = m.offset
  counter : s.localOffset = m.counter.value
  kind : m.counter.kind = .LOCAL
  actual : s.currentActualSize = m.currentActualSize

def FrameOp.isSlot : FrameOp → Bool
  | .findSlot _ => true
  | _ => false

/-- What an instruction, once it is allocated, has asked of the frame manager besides slots. -/
def Item.frameOps : Item → List FrameOp
  | .tac x _ _ =>
    match x.node.tac with
    | .parm _ => [.addActual]
    | .indirectCall _ _ | .directCall _ _ => [.finishActual]
    | _ => []
  | _ => []

/-- The offset from `$sp` at which a PARM stores. -/
def Item.argOffset : Item → List Int
  | .tac x actual _ =>
    match x.node.tac with
    | .parm _ => [actual]
    | _ => []
  | _ => []

/-- The offsets of all PARMs until now. -/
def Laying.stored (l : Laying) : List Int := l.calls.flatten ++ l.pending

/-- From one state of the allocator to another by calls of the frame manager, with the instructions
that come out. -/
def Lays {k : Nat} (s s' : AllocState k) (items : List Item) : Prop :=
  ∀ l : Laying, Agrees s l.manager → ∃ ops : List FrameOp,
    ops.filter (fun op => !op.isSlot) = items.flatMap Item.frameOps ∧
    Agrees s' (ops.foldl Laying.step l).manager ∧
    (ops.foldl Laying.step l).stored = l.stored ++ items.flatMap Item.argOffset

section

variable {k : Nat} {s s' s'' : AllocState k} {is js : List Item}

/-- What changes no slot and no argument. -/
theorem Lays.same (ho : s'.offset = s.offset) (hl : s'.localOffset = s.localOffset)
    (ha : s'.currentActualSize = s.currentActualSize) : Lays s s' [] := by
  intro l h
  exact ⟨[], rfl, ⟨ho.trans h.offset, hl.trans h.counter, h.kind, ha.trans h.actual⟩, by simp⟩

theorem Lays.refl (s : AllocState k) : Lays s s [] := Lays.same rfl rfl rfl

theorem Lays.append (h : Lays s s' is) (h' : Lays s' s'' js) : Lays s s'' (is ++ js) := by
  intro l hl
  obtain ⟨ops, hops, hs', hstored⟩ := h l hl
  obtain ⟨ops', hops', hs'', hstored'⟩ := h' _ hs'
  refine ⟨ops ++ ops', ?_, ?_, ?_⟩
  · rw [List.filter_append, hops, hops', List.flatMap_append]
  · rw [List.foldl_append]
    exact hs''
  · rw [List.foldl_append, hstored', hstored, List.flatMap_append, List.append_assoc]

theorem Lays.trans (h : Lays s s' is) (h' : Lays s' s'' []) : Lays s s'' is := by
  simpa using h.append h'

/-- A spill or a load asks for nothing. -/
theorem Lays.item (i : Item) (hops : i.frameOps = []) (hoff : i.argOffset = []) : Lays s s [i] := by
  intro l hl
  refine ⟨[], ?_, hl, ?_⟩
  · simp [hops]
  · simp [hoff]

theorem lays_findSlot (s : AllocState k) (t : Temp) : Lays s (s.findSlot t) [] := by
  intro l h
  refine ⟨[.findSlot t], rfl, ?_, by simp [Laying.step, Laying.stored]⟩
  show Agrees (s.findSlot t) (l.manager.findSlot t)
  cases ht : l.manager.offset t with
  | some o =>
    have hs : s.findSlot t = s := by simp [AllocState.findSlot, h.offset, ht]
    have hm : l.manager.findSlot t = l.manager := by simp [FrameManager.findSlot, ht]
    rw [hs, hm]
    exact h
  | none =>
    simp only [AllocState.findSlot, FrameManager.findSlot, h.offset, ht]
    constructor
    · show update l.manager.offset t (some s.localOffset) =
        update l.manager.offset t (some l.manager.counter.value)
      rw [h.counter]
    · show s.localOffset - 4 = l.manager.counter.value + l.manager.counter.kind.direction * 4
      rw [h.counter, h.kind]
      simp only [OffsetKind.direction]
      omega
    · exact h.kind
    · exact h.actual

theorem lays_take (s : AllocState k) (r : Fin (k + 1)) (t : Temp) (read : Bool) :
    Lays s (s.take r t read).1 (s.take r t read).2 := by
  have hbind : Lays s (s.bind r t) [] := Lays.same rfl rfl rfl
  unfold AllocState.take
  cases read with
  | false => exact hbind
  | true => exact (hbind.trans (lays_findSlot _ t)).append (Lays.item _ rfl rfl)

theorem lays_evict (s : AllocState k) (r : Fin (k + 1)) (t : Temp) (read : Bool) :
    Lays s (s.evict r t read).1 (s.evict r t read).2 := by
  unfold AllocState.evict
  cases s.var r with
  | none => exact lays_take s r t read
  | some x =>
    have hspill : Lays s (s.findSlot x) [.spill x ((s.findSlot x).slot x)] :=
      (lays_findSlot s x).append (Lays.item _ rfl rfl)
    exact hspill.append (lays_take _ r t read)

theorem lays_findReg (s : AllocState k) (live : Finset Temp) (a : Access) :
    Lays s (s.findReg live a).1 (s.findReg live a).2 := by
  unfold AllocState.findReg
  split
  · exact Lays.refl s
  · split
    · exact lays_take s _ _ _
    · split
      · exact lays_evict s _ _ _
      · have hrandom : Lays s { s with random := fun i => s.random (i + 1) } [] :=
          Lays.same rfl rfl rfl
        exact hrandom.append (lays_evict _ _ _ _)

theorem lays_findRegs (s : AllocState k) (live : Finset Temp) (as : List Access) :
    Lays s (s.findRegs live as).1 (s.findRegs live as).2 := by
  induction as generalizing s with
  | nil => exact Lays.refl s
  | cons a as ih => exact (lays_findReg s live a).append (ih _)

theorem lays_findSaves (s : AllocState k) (skip : Option Temp) (ts : List Temp) :
    Lays s (s.findSaves skip ts).1 [] := by
  induction ts generalizing s with
  | nil => exact Lays.refl s
  | cons t ts ih =>
    unfold AllocState.findSaves
    split
    · exact (lays_findSlot s t).trans (ih _)
    · exact ih s

/-- The instruction itself, once its registers are found. -/
def AllocState.finishTac (s : AllocState k) (x : LiveTac) : AllocState k × List Item :=
  match x.node.tac with
  | .indirectCall op0 _ | .directCall op0 _ =>
    let (s, saves) := { s with currentActualSize := 4 }.findSaves op0 x.liveOut
    (s, [.tac x 0 saves])
  | .parm _ =>
    ({ s with currentActualSize := s.currentActualSize + 4 }, [.tac x s.currentActualSize []])
  | _ => (s, [.tac x 0 []])

theorem allocTac_eq (s : AllocState k) (live : Finset Temp) (x : LiveTac) :
    s.allocTac live x =
      (((s.findRegs live x.node.tac.accesses).1.finishTac x).1,
        (s.findRegs live x.node.tac.accesses).2 ++
          ((s.findRegs live x.node.tac.accesses).1.finishTac x).2) := by
  unfold AllocState.allocTac AllocState.finishTac
  cases x.node.tac <;> rfl

theorem lays_call (s : AllocState k) (op0 : Option Temp) {x : LiveTac}
    (hx : x.node.tac.isCall = true) (saves : List Temp) :
    Lays s ({ s with currentActualSize := 4 }.findSaves op0 x.liveOut).1 [.tac x 0 saves] := by
  have hfinish : Lays s { s with currentActualSize := 4 } [.tac x 0 saves] := by
    intro l h
    refine ⟨[.finishActual], ?_, ⟨h.offset, h.counter, h.kind, rfl⟩, ?_⟩
    · cases ht : x.node.tac <;> simp [Tac.isCall, ht] at hx <;>
        simp [Item.frameOps, ht, FrameOp.isSlot]
    · cases ht : x.node.tac <;> simp [Tac.isCall, ht] at hx <;>
        simp [Item.argOffset, ht, Laying.step, Laying.stored]
  exact hfinish.trans (lays_findSaves _ op0 x.liveOut)

theorem lays_finishTac (s : AllocState k) (x : LiveTac) :
    Lays s (s.finishTac x).1 (s.finishTac x).2 := by
  unfold AllocState.finishTac
  split
  · next op0 _ ht => exact lays_call s op0 (by rw [ht]; rfl) _
  · next op0 _ ht => exact lays_call s op0 (by rw [ht]; rfl) _
  · next ht =>
    intro l h
    refine ⟨[.addActual], ?_, ⟨h.offset, h.counter, h.kind, ?_⟩, ?_⟩
    · simp [Item.frameOps, ht, FrameOp.isSlot]
    · show s.currentActualSize + 4 = l.manager.currentActualSize + 4
      rw [h.actual]
    · simp [Item.argOffset, ht, Laying.step, Laying.stored, FrameManager.addActual, h.actual]
  · next hi hd hp =>
    apply Lays.item
    · unfold Item.frameOps
      cases ht : x.node.tac <;> simp_all
    · unfold Item.argOffset
      cases ht : x.node.tac <;> simp_all

theorem lays_allocTacs (s : AllocState k) (live : Finset Temp) (xs : List LiveTac) :
    Lays s (s.allocTacs live xs).1 (s.allocTacs live xs).2 := by
  induction xs generalizing s live with
  | nil => exact Lays.refl s
  | cons x xs ih =>
    rw [AllocState.allocTacs_cons]
    refine Lays.append ?_ (ih _ _)
    rw [allocTac_eq]
    exact (lays_findRegs s live _).append (lays_finishTac _ x)

/-- The allocation of a block is a row of calls of the frame manager. -/
theorem lays_alloc (s : AllocState k) (a : AllocBlock) :
    Lays s (s.alloc a).state (s.alloc a).items := by
  have hclear : Lays s s.clear [] := Lays.same rfl rfl rfl
  have htacs := hclear.append (lays_allocTacs s.clear a.liveIn a.tacs)
  have hsaves := htacs.trans (lays_findSaves _ none a.liveOut)
  obtain ⟨-, ⟨-, hstate, hitems, -⟩ | ⟨v, -, -, hstate, hitems, -⟩⟩ := s.alloc_cases a
  · rw [hstate, hitems]
    exact hsaves
  · rw [hitems]
    refine Lays.append ?_ (Lays.item _ rfl rfl)
    rw [hstate]
    refine hsaves.trans (Lays.trans ?_ (lays_findSlot _ v))
    exact Lays.same rfl rfl rfl

/-- The code of the blocks of a function, one after the other. -/
def AllocState.allocItems (s : AllocState k) : List AllocBlock → List Item
  | [] => []
  | a :: as => (s.alloc a).items ++ (s.alloc a).state.allocItems as

theorem lays_allocAll (s : AllocState k) (as : List AllocBlock) :
    Lays s (s.allocAll as) (s.allocItems as) := by
  induction as generalizing s with
  | nil => exact Lays.refl s
  | cons a as ih => exact (lays_alloc s a).append (ih _)

end

/-! ## Functions and activations -/

/-- A function in the backend: its parameters, its blocks, and what the allocator finds in the
registers. -/
structure FunctionCode (k : Nat) where
  params : List Temp
  nodup : params.Nodup
  blocks : List AllocBlock
  initial : AllocState k

namespace FunctionCode

variable {k : Nat} (f : FunctionCode k)

def start : AllocState k := f.initial.start f.params

/-- The instructions of the function, in the order in which they are allocated. -/
def items : List Item := f.start.allocItems f.blocks

/-- `temp.offset` when the function has been allocated. -/
def offset : Temp → Option Int := (f.start.allocAll f.blocks).offset

/-- The parameters stand as they are counted. -/
theorem start_offset {j : Nat} {t : Temp} (h : f.params[j]? = some t) :
    f.start.offset t = some (parameterOffset j) := by
  obtain ⟨hlt, rfl⟩ := List.getElem?_eq_some_iff.mp h
  show (if _ ∈ f.params then some (4 * ((f.params.idxOf _ : Int) + 1)) else none) = _
  rw [if_pos (List.getElem_mem hlt), f.nodup.idxOf_getElem, parameterOffset_eq]
  congr 1
  omega

theorem start_offset_none {t : Temp} : f.start.offset t = none ↔ t ∉ f.params := by
  show (if t ∈ f.params then some _ else none) = none ↔ _
  split <;> simp [*]

end FunctionCode

/-- A function with all that is asked of the frame manager while it is allocated. -/
structure FunctionFrame (k : Nat) extends FunctionCode k where
  ops : List FrameOp
  made : ops.filter (fun op => !op.isSlot) = toFunctionCode.items.flatMap Item.frameOps
  agrees : Agrees (toFunctionCode.start.allocAll toFunctionCode.blocks)
    (ops.foldl Laying.step (.start toFunctionCode.start.offset)).manager
  stored : (ops.foldl Laying.step (.start toFunctionCode.start.offset)).stored =
    toFunctionCode.items.flatMap Item.argOffset

/-- Every function is laid out by calls of the frame manager. -/
theorem FunctionCode.framed {k : Nat} (f : FunctionCode k) :
    ∃ frame : FunctionFrame k, frame.toFunctionCode = f := by
  obtain ⟨ops, hmade, hagrees, hstored⟩ :=
    lays_allocAll f.start f.blocks (.start f.start.offset) ⟨rfl, rfl, rfl, rfl⟩
  exact ⟨⟨f, ops, hmade, hagrees, hstored⟩, rfl⟩

namespace FunctionFrame

variable {k : Nat} (f : FunctionFrame k)

def laying : Laying := f.ops.foldl Laying.step (.start f.start.offset)

/-- The `frameSize` of the prolog. -/
def frameSize : Int := f.laying.manager.getStackFrameSize

theorem ok : LayingOk f.start.offset f.laying := (LayingOk.start _).run f.ops

theorem offset_eq : f.offset = f.laying.manager.offset := f.agrees.offset

end FunctionFrame

/-- What `emitProlog` does with `$sp`: where it stores `$fp` and `$ra`, and the new `$fp` and `$sp`. -/
structure Prolog where
  savedFp : Int
  savedRa : Int
  fp : Int
  sp : Int

def emitProlog (frameSize sp : Int) : Prolog := ⟨sp, sp - 4, sp, sp + (-frameSize - 2 * 4)⟩

/-- A function that runs: `$sp` as it was entered with, and the number of the call whose arguments it
stores. -/
structure Activation (k : Nat) where
  frame : FunctionFrame k
  entry : Int
  call : Nat

/-- The words that belong to an activation. -/
inductive FrameWord
  | slot (t : Temp)
  | savedFp
  | savedRa
  | arg (k : Nat)
deriving DecidableEq

namespace Activation

variable {k : Nat} (a : Activation k)

def prolog : Prolog := emitProlog a.frame.frameSize a.entry

/-- The word that is loaded for a temp, or stored. -/
def tempAddr (t : Temp) : Option Int := (a.frame.offset t).map (a.prolog.fp + ·)

/-- Where the word stands. A parameter has no slot of its own. -/
def addr : FrameWord → Option Int
  | .slot t => if t ∈ a.frame.params then none else a.tempAddr t
  | .savedFp => some a.prolog.savedFp
  | .savedRa => some a.prolog.savedRa
  | .arg j => (a.frame.laying.calls[a.call]?.bind fun offsets => offsets[j]?).map (a.prolog.sp + ·)

/-- The function of `a` was called by that of `b`. -/
def CalledBy (a b : Activation k) : Prop := a.entry = b.prolog.sp

end Activation

section

variable {k : Nat} {a b : Activation k} {v w : FrameWord} {x y : Int}

theorem Activation.slot_addr {t : Temp} (h : a.addr (.slot t) = some x) :
    a.frame.start.offset t = none ∧ ∃ o, a.frame.laying.manager.offset t = some o ∧
      x = a.entry + o := by
  have haddr : (if t ∈ a.frame.params then none else a.tempAddr t) = some x := h
  split at haddr
  · cases haddr
  · next hp =>
    obtain ⟨o, ho, rfl⟩ := Option.map_eq_some_iff.mp haddr
    rw [a.frame.offset_eq] at ho
    exact ⟨a.frame.start_offset_none.mpr hp, o, ho, rfl⟩

theorem Activation.arg_addr {j : Nat} (h : a.addr (.arg j) = some x) :
    x = a.prolog.sp + (4 + 4 * (j : Int)) ∧
      4 + 4 * ((j : Int) + 1) ≤ a.frame.laying.manager.maxActualSize := by
  obtain ⟨o, ho, rfl⟩ := Option.map_eq_some_iff.mp h
  obtain ⟨offsets, hc, hj⟩ := Option.bind_eq_some_iff.mp ho
  obtain ⟨heq, hmax⟩ := a.frame.ok.calls offsets (List.mem_of_getElem? hc)
  obtain ⟨hlt, -⟩ := List.getElem?_eq_some_iff.mp hj
  have hval : o = 4 + 4 * (j : Int) := by
    rw [heq, argOffsets, List.getElem?_map, List.getElem?_range hlt] at hj
    exact (Option.some_inj.mp hj).symm
  constructor
  · rw [hval]
  · omega

theorem Activation.sp_eq (a : Activation k) :
    a.prolog.sp = a.entry - a.frame.laying.manager.maxSize -
      a.frame.laying.manager.maxActualSize - 8 := by
  show a.entry + (-(_ + _) - 2 * 4) = _
  omega

/-- The words of an activation lie from the word over its `$sp` up to the one at its entry. -/
theorem Activation.addr_bounds (h : a.addr v = some x) : a.prolog.sp + 4 ≤ x ∧ x ≤ a.entry := by
  have hsp := a.sp_eq
  have hnon := a.frame.ok.nonneg
  have hbase := a.frame.ok.base
  cases v with
  | slot t =>
    obtain ⟨hf, o, ho, rfl⟩ := slot_addr h
    have hslot := a.frame.ok.slot t o ho hf
    omega
  | savedFp =>
    obtain rfl : a.entry = x := Option.some_inj.mp h
    omega
  | savedRa =>
    obtain rfl : a.entry - 4 = x := Option.some_inj.mp h
    omega
  | arg j =>
    obtain ⟨rfl, hj⟩ := arg_addr h
    omega

/-- The words of one activation. -/
theorem Activation.addr_apart (hv : a.addr v = some x) (hw : a.addr w = some y) (hne : v ≠ w) :
    x + 4 ≤ y ∨ y + 4 ≤ x := by
  have hsp := a.sp_eq
  have hnon := a.frame.ok.nonneg
  have hbounds (t : Temp) (z : Int) (hz : a.addr (.slot t) = some z) :
      a.entry - 4 - a.frame.laying.manager.maxSize ≤ z ∧ z ≤ a.entry - 8 := by
    obtain ⟨hf, o, ho, rfl⟩ := slot_addr hz
    have hslot := a.frame.ok.slot t o ho hf
    omega
  have hargs (j : Nat) (z : Int) (hz : a.addr (.arg j) = some z) :
      z + 4 ≤ a.entry - 4 - a.frame.laying.manager.maxSize := by
    obtain ⟨rfl, hj⟩ := arg_addr hz
    omega
  have hfp (z : Int) (hz : a.addr .savedFp = some z) : z = a.entry := (Option.some_inj.mp hz).symm
  have hra (z : Int) (hz : a.addr .savedRa = some z) : z = a.entry - 4 :=
    (Option.some_inj.mp hz).symm
  cases v with
  | slot t =>
    have ht := hbounds t x hv
    cases w with
    | slot u =>
      obtain ⟨hft, o, ho, rfl⟩ := slot_addr hv
      obtain ⟨hfu, p, hp, rfl⟩ := slot_addr hw
      have hslots := a.frame.ok.slots t u o p ho hp hft hfu (fun h => hne (by rw [h]))
      omega
    | savedFp =>
      have := hfp y hw
      omega
    | savedRa =>
      have := hra y hw
      omega
    | arg j =>
      have := hargs j y hw
      omega
  | savedFp =>
    have hx := hfp x hv
    cases w with
    | slot u =>
      have := hbounds u y hw
      omega
    | savedFp => exact absurd rfl hne
    | savedRa =>
      have := hra y hw
      omega
    | arg j =>
      have := hargs j y hw
      omega
  | savedRa =>
    have hx := hra x hv
    cases w with
    | slot u =>
      have := hbounds u y hw
      omega
    | savedFp =>
      have := hfp y hw
      omega
    | savedRa => exact absurd rfl hne
    | arg j =>
      have := hargs j y hw
      omega
  | arg j =>
    have hx := hargs j x hv
    cases w with
    | slot u =>
      have := hbounds u y hw
      omega
    | savedFp =>
      have := hfp y hw
      omega
    | savedRa =>
      have := hra y hw
      omega
    | arg i =>
      have hj := (arg_addr hv).1
      have hi := (arg_addr hw).1
      have hij : j ≠ i := fun h => hne (by rw [h])
      omega

/-- All that is called lies under the frame of the caller. -/
theorem pairwise_of_chain {stack : List (Activation k)} (h : stack.IsChain Activation.CalledBy) :
    stack.Pairwise fun a b => a.entry ≤ b.prolog.sp := by
  have htrans : Trans (fun a b : Activation k => a.entry ≤ b.prolog.sp)
      (fun a b : Activation k => a.entry ≤ b.prolog.sp)
      (fun a b : Activation k => a.entry ≤ b.prolog.sp) := by
    constructor
    intro a b c hab hbc
    have hsp := b.sp_eq
    have hnon := b.frame.ok.nonneg
    have hbase := b.frame.ok.base
    show a.entry ≤ c.prolog.sp
    omega
  rw [← List.isChain_iff_pairwise]
  exact h.imp fun a b hab => Int.le_of_eq hab

/-- The words of two functions that run. -/
theorem Activation.addr_apart_of_under (hv : a.addr v = some x) (hw : b.addr w = some y)
    (h : a.entry ≤ b.prolog.sp) : x + 4 ≤ y := by
  have hx := addr_bounds hv
  have hy := addr_bounds hw
  omega

/-- A parameter is loaded from the word that the caller has stored. -/
theorem Activation.param_addr (h : a.CalledBy b) {j : Nat} {t : Temp} (hx : b.addr (.arg j) = some x)
    (ht : a.frame.params[j]? = some t) : a.tempAddr t = some x := by
  obtain ⟨rfl, -⟩ := arg_addr hx
  have hoff : a.frame.offset t = some (parameterOffset j) := by
    rw [a.frame.offset_eq]
    exact a.frame.ok.keeps t _ (a.frame.start_offset ht)
  have hfp : a.prolog.fp = b.prolog.sp := h
  unfold tempAddr
  rw [hoff, hfp, parameterOffset_eq]
  rfl

end

/-- While the functions of a stack run, the innermost one first, no two of their words overlap, the
arguments stand over `$sp`, and the callee loads its parameters from them. -/
theorem frames_apart {k : Nat} (stack : List (Activation k))
    (h : stack.IsChain Activation.CalledBy) :
    (∀ (i j : Nat) (a b : Activation k) v w x y, stack[i]? = some a → stack[j]? = some b →
      a.addr v = some x → b.addr w = some y → i ≠ j ∨ v ≠ w → x + 4 ≤ y ∨ y + 4 ≤ x) ∧
    (∀ a ∈ stack, ∀ j x, a.addr (.arg j) = some x → a.prolog.sp + 4 ≤ x) ∧
    (∀ (i : Nat) (a b : Activation k) j t x, stack[i]? = some a → stack[i + 1]? = some b →
      b.addr (.arg j) = some x → a.frame.params[j]? = some t → a.tempAddr t = some x) := by
  have hunder : ∀ (i j : Nat) (a b : Activation k), stack[i]? = some a → stack[j]? = some b → i < j →
      a.entry ≤ b.prolog.sp := by
    intro i j a b ha hb hij
    obtain ⟨hi, rfl⟩ := List.getElem?_eq_some_iff.mp ha
    obtain ⟨hj, rfl⟩ := List.getElem?_eq_some_iff.mp hb
    exact List.pairwise_iff_getElem.mp (pairwise_of_chain h) i j hi hj hij
  refine ⟨?_, ?_, ?_⟩
  · intro i j a b v w x y ha hb hv hw hne
    rcases Nat.lt_trichotomy i j with hij | rfl | hij
    · exact Or.inl (Activation.addr_apart_of_under hv hw (hunder i j a b ha hb hij))
    · obtain rfl := Option.some_inj.mp (ha.symm.trans hb)
      exact Activation.addr_apart hv hw (hne.resolve_left fun h => h rfl)
    · exact Or.inr (Activation.addr_apart_of_under hw hv (hunder j i b a hb ha hij))
  · intro a _ j x hx
    exact (Activation.addr_bounds hx).1
  · intro i a b j t x ha hb hx ht
    obtain ⟨hi, rfl⟩ := List.getElem?_eq_some_iff.mp ha
    obtain ⟨hj, rfl⟩ := List.getElem?_eq_some_iff.mp hb
    exact Activation.param_addr (List.isChain_iff_getElem.mp h i (by omega)) hx ht

/-! A function that keeps a number while it hands its parameter on to itself. -/

def handsOn : AllocBlock where
  tacs := [
    liveTac 0 (.loadImm4 ⟨1⟩ 5) [0, 1],
    liveTac 1 (.parm ⟨0⟩) [0, 1],
    liveTac 2 (.directCall none ⟨9⟩) [0, 1],
    liveTac 3 (.binary .add ⟨2⟩ ⟨1⟩ ⟨0⟩) [2]]
  liveIn := {⟨0⟩}
  liveOut := []
  var := some ⟨2⟩
  endKind := .BY_RETURN
  plain := by decide
  outs := by decide
  ins := by decide

def handsOnFrame : FunctionFrame 16 where
  params := [⟨0⟩]
  nodup := by decide
  blocks := [handsOn]
  initial := unused
  ops := [.addActual, .finishActual, .findSlot ⟨1⟩]
  made := by decide +kernel
  agrees := ⟨rfl, rfl, rfl, rfl⟩
  stored := by decide +kernel

def handedOn : List (Activation 16) :=
  [⟨handsOnFrame, -40, 0⟩, ⟨handsOnFrame, -20, 0⟩, ⟨handsOnFrame, 0, 0⟩]

/-- The slot of the number, what the prolog has stored, and the argument, from which the callee loads
its parameter. -/
theorem frames_apart_handedOn :
    handedOn[1]?.map (fun a => [a.addr (.slot ⟨1⟩), a.addr .savedFp, a.addr .savedRa,
      a.addr (.arg 0)]) = some [some (-28), some (-20), some (-24), some (-36)] ∧
    handedOn[0]?.map (fun a => a.tempAddr ⟨0⟩) = some (some (-36)) := by
  have hchain : handedOn.IsChain Activation.CalledBy := by
    simp only [handedOn, List.isChain_cons_cons, List.isChain_singleton, and_true,
      Activation.CalledBy]
    exact ⟨by decide +kernel, by decide +kernel⟩
  obtain ⟨-, -, hparam⟩ := frames_apart handedOn hchain
  refine ⟨by decide +kernel, ?_⟩
  have harg := hparam 0 _ _ 0 ⟨0⟩ (-36) rfl rfl (by decide +kernel) (by decide +kernel)
  rw [show handedOn[0]? = some ⟨handsOnFrame, -40, 0⟩ from rfl, Option.map_some]
  exact congrArg some harg

end nehcpu.decaf
