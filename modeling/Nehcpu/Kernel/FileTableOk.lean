-- The tables of open files are sound: every count is the number of what it counts, the inodes are
-- closed when their last file goes, and no assertion of the tables fails.
import Mathlib.Data.Finset.Prod
import Mathlib.Data.Fintype.Basic
import Nehcpu.Kernel.FileTable
import Nehcpu.Lib.RefCount

namespace nehcpu.kernel.filetable

open Function nehcpu.fallible nehcpu.refcount
open nehcpu.calls hiding goOn
open cpu hiding Except

/-! ## What a call holds -/

/-- What a call does with its file. -/
inductive Use
  | io
  | opening
  | closing
deriving DecidableEq

def Call.slot : Call → Option (Use × Tab × Fd)
  | .lookup _ t i _ => some (.opening, t, i)
  | .truncate _ t i _ _ => some (.opening, t, i)
  | .failing _ t i _ _ => some (.opening, t, i)
  | .failed _ t i _ => some (.opening, t, i)
  | .io _ t i _ => some (.io, t, i)
  | .closing t i _ _ => some (.closing, t, i)
  | .closed t i _ => some (.closing, t, i)
  | _ => none

/-- The inode that the call has open without a file. -/
def Call.opened : Call → Option Node
  | .truncate _ _ _ _ node => some node
  | _ => none

/-- The inode that the call has a reference to. -/
def Call.held : Call → Option Node
  | .truncate _ _ _ _ node => some node
  | .failing _ _ _ node _ => some node
  | .closing _ _ node _ => some node
  | _ => none

/-- The table of the processes, where the call works on their own. -/
def Next.tab (t : Tab) : Next → Option Tab
  | .destroy _ => none
  | _ => some t

def Call.tab : Call → Option Tab
  | .lookup _ t _ _ => some t
  | .truncate _ t _ _ _ => some t
  | .failing _ t _ _ _ => some t
  | .failed _ t _ _ => some t
  | .io _ t _ _ => some t
  | .closing t _ _ next => next.tab t
  | .closed t _ next => next.tab t
  | .closeall _ t _ => some t
  | .destroy _ _ _ => none
  | .forking _ _ => none

/-- The table that the call destroys, and the files that it has done there. -/
def Next.swept (t : Tab) (i : Nat) : Next → Option (Tab × Nat)
  | .destroy _ => some (t, i)
  | _ => none

def Call.swept : Call → Option (Tab × Nat)
  | .closing t i _ next => next.swept t i
  | .closed t i next => next.swept t i
  | .destroy t i _ => some (t, i)
  | _ => none

def Call.dying (c : Call) : Option Tab := c.swept.map Prod.fst

def busyCount (calls : List Call) (pid : Pid) : Nat := calls.countP fun c => pid ∈ c.pids

/-! ## The invariant -/

/-- The inode that the file has open: it is opened, or closed and still in use. -/
def file.names (f : file) : Option Node :=
  if f.status = .FD_OPENED ∨ f.status = .FD_CLOSED ∧ f.open_count ≠ 0 then f.node else none

def Sys.named (s : Sys) (node : Node) : Nat :=
  refs (s.tabs ×ˢ Finset.univ) (fun x => (s.slot x.1 x.2).names) node

def Sys.opening (s : Sys) (node : Node) : Nat := holding Call.opened s.calls node

def Sys.operations (s : Sys) (t : Tab) (i : Fd) : Nat := holding Call.slot s.calls (.io, t, i)

/-- The directory of a table, as long as the table has the reference. -/
def Sys.pwd (s : Sys) (t : Tab) : Option Node :=
  if holding Call.dying s.calls t = 0 then (s.table t).pwd else none

structure SlotOk (calls : List Call) (t : Tab) (i : Fd) (f : file) : Prop where
  fd : f.fd = i
  open_count : f.open_count =
    holding Call.slot calls (.io, t, i) + if f.status = .FD_OPENED then 1 else 0
  opening : holding Call.slot calls (.opening, t, i) = if f.status = .FD_INIT then 1 else 0
  closing : holding Call.slot calls (.closing, t, i) =
    if f.status = .FD_CLOSED ∧ f.open_count = 0 then 1 else 0
  unused : f.status = .FD_NONE ∨ f.status = .FD_INIT → f.open_count = 0
  node : f.status = .FD_OPENED ∨ f.status = .FD_CLOSED → f.node ≠ none

/-- The processes inside the call are there, one of them has the table that the call works on, and a
table that the call destroys has no process and no file where the call has been. -/
structure Call.Inside (s : Sys) (c : Call) : Prop where
  procs : ∀ pid ∈ c.pids, pid ∈ s.procs
  own : ∀ t ∈ c.tab, ∃ pid ∈ c.pids, s.fs_struct pid = some t
  swept : ∀ t k, c.swept = some (t, k) → t ∈ s.tabs ∧ (s.table t).fs_count = 0 ∧
    ∀ i : Fd, i < k → (s.slot t i).status = .FD_NONE
  nodup : c.pids.Nodup

structure Ok (s : Sys) : Prop where
  slots : ∀ t ∈ s.tabs, ∀ i, SlotOk s.calls t i (s.slot t i)
  open_count : ∀ node, s.open_count node = s.named node + s.opening node
  ref_count : ∀ node, s.ref_count node =
    s.named node + holding Call.held s.calls node + refs s.tabs s.pwd node + s.others node
  procs : ∀ pid ∈ s.procs, ∃ t ∈ s.tabs, s.fs_struct pid = some t
  fs_count : ∀ t ∈ s.tabs, (s.table t).fs_count = refs s.procs s.fs_struct t
  inside : ∀ c ∈ s.calls, c.Inside s
  dying : ∀ t, holding Call.dying s.calls t ≤ 1
  busy : ∀ pid, busyCount s.calls pid ≤ 1

/-- `vop_close` ran in the step for the inodes whose last open went, and for no others. -/
def Closes (s s' : Sys) : Prop :=
  ∀ node, s'.vop_closes node =
    s.vop_closes node + if 0 < s.open_count node ∧ s'.open_count node = 0 then 1 else 0

def Fine (s s' : Sys) : Prop := Ok s' ∧ Closes s s'

/-! ## A change of one file -/

/-- The step changes the file `i` of `t` at most, and its calls `old` go on as `new`. -/
structure Edit (s s' : Sys) (t : Tab) (i : Fd) (old new : List Call) : Prop where
  tabs : s'.tabs = s.tabs
  procs : s'.procs = s.procs
  fs_struct : s'.fs_struct = s.fs_struct
  others : s'.others = s.others
  slot : ∀ u j, (u, j) ≠ (t, i) → s'.slot u j = s.slot u j
  pwd : ∀ u, (s'.table u).pwd = (s.table u).pwd
  fs_count : ∀ u, (s'.table u).fs_count = (s.table u).fs_count
  calls : Moves s.calls old new s'.calls

section

variable {s s' : Sys} {t : Tab} {i : Fd} {old new : List Call}

theorem moves_busyCount {calls calls' : List Call} (m : Moves calls old new calls') (pid : Pid) :
    busyCount calls' pid + busyCount old pid = busyCount calls pid + busyCount new pid :=
  m.count _

theorem holding_zero {f : Call → Option (Use × Tab × Fd)} {calls : List Call} {u : Tab} {j : Fd}
    {k : Use} (h : ∀ c ∈ calls, ∀ x, f c = some x → x.2 = (t, i)) (hne : (u, j) ≠ (t, i)) :
    holding f calls (k, u, j) = 0 :=
  holding_eq_zero fun c hc hx => hne (h c hc _ hx)

theorem Edit.named (e : Edit s s' t i old new) (ht : t ∈ s.tabs) (node : Node) :
    s'.named node + holds (s.slot t i).names node =
      s.named node + holds (s'.slot t i).names node := by
  unfold Sys.named
  rw [e.tabs]
  have hm : (t, i) ∈ s.tabs ×ˢ (Finset.univ : Finset Fd) :=
    Finset.mem_product.2 ⟨ht, Finset.mem_univ i⟩
  refine refs_set (f := fun x => (s.slot x.1 x.2).names) (g := fun x => (s'.slot x.1 x.2).names) hm
    ?_ node
  intro x _ hx
  show (s'.slot x.1 x.2).names = (s.slot x.1 x.2).names
  rw [e.slot x.1 x.2 hx]

theorem Edit.pwds (e : Edit s s' t i old new)
    (hdying : ∀ u, holding Call.dying new u = holding Call.dying old u) : s'.pwd = s.pwd := by
  funext u
  have hm := e.calls.holding Call.dying u
  have hu : holding Call.dying s'.calls u = holding Call.dying s.calls u := by
    have := hdying u
    omega
  unfold Sys.pwd
  rw [hu, e.pwd u]

theorem Edit.inside (e : Edit s s' t i old new) {c : Call} (h : c.Inside s)
    (hnone : c.dying = some t → (s.slot t i).status = .FD_NONE → (s'.slot t i).status = .FD_NONE) :
    c.Inside s' := by
  refine ⟨?_, ?_, ?_, h.nodup⟩
  · rw [e.procs]
    exact h.procs
  · rw [e.fs_struct]
    exact h.own
  · intro u k hc
    obtain ⟨hu, h0, hj⟩ := h.swept u k hc
    rw [e.tabs, e.fs_count]
    refine ⟨hu, h0, fun j hlt => ?_⟩
    by_cases hx : (u, j) = (t, i)
    · obtain ⟨rfl, rfl⟩ := Prod.mk.inj hx
      exact hnone (by rw [Call.dying, hc]; rfl) (hj j hlt)
    · rw [e.slot u j hx]
      exact hj j hlt

/-- What a change of a file must respect. -/
theorem Ok.edit (h : Ok s) (e : Edit s s' t i old new) (ht : t ∈ s.tabs)
    (hat : ∀ c ∈ old ++ new, ∀ x, c.slot = some x → x.2 = (t, i))
    (hslot : SlotOk s'.calls t i (s'.slot t i))
    (hopen : ∀ node, s'.open_count node + holds (s.slot t i).names node +
        holding Call.opened old node =
      s.open_count node + holds (s'.slot t i).names node + holding Call.opened new node)
    (href : ∀ node, s'.ref_count node + holds (s.slot t i).names node + holding Call.held old node =
      s.ref_count node + holds (s'.slot t i).names node + holding Call.held new node)
    (hdying : ∀ u, holding Call.dying new u = holding Call.dying old u)
    (hbusy : ∀ pid, busyCount s.calls pid + busyCount new pid ≤ 1 + busyCount old pid)
    (hin : ∀ c ∈ new, c.Inside s')
    (hnone : (s.slot t i).status = .FD_NONE →
      (s'.slot t i).status = .FD_NONE ∨ holding Call.dying s.calls t = 0) : Ok s' := by
  constructor
  case slots =>
    intro u hu j
    rw [e.tabs] at hu
    by_cases hx : (u, j) = (t, i)
    · obtain ⟨rfl, rfl⟩ := Prod.mk.inj hx
      exact hslot
    · have hk : ∀ k : Use, holding Call.slot s'.calls (k, u, j) = holding Call.slot s.calls (k, u, j) := by
        intro k
        have hm := e.calls.holding Call.slot (k, u, j)
        rw [holding_zero (fun c hc => hat c (List.mem_append_left _ hc)) hx,
          holding_zero (fun c hc => hat c (List.mem_append_right _ hc)) hx] at hm
        exact hm
      have hs := h.slots u hu j
      rw [e.slot u j hx]
      exact ⟨hs.fd, by rw [hk]; exact hs.open_count, by rw [hk]; exact hs.opening,
        by rw [hk]; exact hs.closing, hs.unused, hs.node⟩
  case open_count =>
    intro node
    have h1 := h.open_count node
    have h2 := hopen node
    have h3 := e.named ht node
    have h4 := e.calls.holding Call.opened node
    unfold Sys.opening at h1 ⊢
    omega
  case ref_count =>
    intro node
    have h1 := h.ref_count node
    have h2 := href node
    have h3 := e.named ht node
    have h4 := e.calls.holding Call.held node
    rw [e.pwds hdying, e.tabs, e.others]
    omega
  case procs =>
    rw [e.procs, e.tabs, e.fs_struct]
    exact h.procs
  case fs_count =>
    intro u hu
    rw [e.tabs] at hu
    rw [e.fs_count, e.procs, e.fs_struct]
    exact h.fs_count u hu
  case inside =>
    intro c hc
    rcases e.calls.mem c hc with hc | hc
    · refine e.inside (h.inside c hc) fun hd hst => (hnone hst).resolve_right ?_
      exact Nat.ne_of_gt (holding_pos.2 ⟨c, hc, hd⟩)
    · exact hin c hc
  case dying =>
    intro u
    have h1 := e.calls.holding Call.dying u
    have h2 := hdying u
    have h3 := h.dying u
    omega
  case busy =>
    intro pid
    have h1 := moves_busyCount e.calls pid
    have h2 := hbusy pid
    omega

end

/-! ## What the invariant says of a call -/

section

variable {s : Sys} {t : Tab} {i : Fd} {c : Call} {pid : Pid}

theorem Ok.of_proc (h : Ok s) (hp : pid ∈ s.procs) (ht : s.fs_struct pid = some t) :
    t ∈ s.tabs ∧ (s.table t).fs_count ≠ 0 := by
  obtain ⟨u, hu, hpu⟩ := h.procs pid hp
  obtain rfl : t = u := Option.some_inj.1 (ht.symm.trans hpu)
  refine ⟨hu, ?_⟩
  rw [h.fs_count t hu]
  exact Nat.ne_of_gt (refs_pos.2 ⟨pid, hp, ht⟩)

theorem Ok.of_tab (h : Ok s) (hc : c ∈ s.calls) (ht : c.tab = some t) :
    t ∈ s.tabs ∧ (s.table t).fs_count ≠ 0 := by
  have hin := h.inside c hc
  obtain ⟨pid, hp, hpt⟩ := hin.own t ht
  exact h.of_proc (hin.procs pid hp) hpt

theorem Call.dying_of_swept {k : Nat} (h : c.swept = some (t, k)) : c.dying = some t := by
  unfold Call.dying
  rw [h]
  rfl

theorem Call.swept_of_dying (h : c.dying = some t) : ∃ k, c.swept = some (t, k) := by
  obtain ⟨⟨u, k⟩, hk, rfl⟩ := Option.map_eq_some_iff.1 h
  exact ⟨k, hk⟩

/-- A call works on the table of one of its processes, or it destroys the table. -/
theorem Call.tab_or_dying {k : Use} (h : c.slot = some (k, t, i)) : c.tab = some t ∨ c.dying = some t := by
  cases c with
  | closing u j node next | closed u j next =>
    obtain ⟨rfl, rfl, rfl⟩ : Use.closing = k ∧ u = t ∧ j = i := by simpa [Call.slot] using h
    cases next with
    | ret pid value | closeall pid => exact Or.inl rfl
    | destroy owner => exact Or.inr rfl
  | lookup | truncate | failing | failed | io =>
    simp [Call.slot] at h
    simp [Call.tab, h]
  | closeall | destroy | forking => simp [Call.slot] at h

theorem Ok.slot_mem (h : Ok s) (hc : c ∈ s.calls) {k : Use} (hx : c.slot = some (k, t, i)) :
    t ∈ s.tabs := by
  rcases Call.tab_or_dying hx with ht | ht
  · exact (h.of_tab hc ht).1
  · obtain ⟨k, hk⟩ := Call.swept_of_dying ht
    exact ((h.inside c hc).swept t k hk).1

theorem Ok.of_opening (h : Ok s) (hc : c ∈ s.calls) (hx : c.slot = some (.opening, t, i)) :
    t ∈ s.tabs ∧ (s.slot t i).status = .FD_INIT ∧ (s.slot t i).open_count = 0 := by
  have ht := h.slot_mem hc hx
  have hs := h.slots t ht i
  have hpos : 0 < holding Call.slot s.calls (.opening, t, i) := holding_pos.2 ⟨c, hc, hx⟩
  have hi : (s.slot t i).status = .FD_INIT := by
    by_contra hne
    rw [hs.opening, if_neg hne] at hpos
    exact absurd hpos (Nat.lt_irrefl 0)
  exact ⟨ht, hi, hs.unused (Or.inr hi)⟩

theorem Ok.of_closing (h : Ok s) (hc : c ∈ s.calls) (hx : c.slot = some (.closing, t, i)) :
    t ∈ s.tabs ∧ (s.slot t i).status = .FD_CLOSED ∧ (s.slot t i).open_count = 0 := by
  have ht := h.slot_mem hc hx
  have hs := h.slots t ht i
  have hpos : 0 < holding Call.slot s.calls (.closing, t, i) := holding_pos.2 ⟨c, hc, hx⟩
  refine ⟨ht, ?_⟩
  by_contra hne
  rw [hs.closing, if_neg hne] at hpos
  exact absurd hpos (Nat.lt_irrefl 0)

theorem Ok.of_io (h : Ok s) (hc : c ∈ s.calls) (hx : c.slot = some (.io, t, i)) :
    t ∈ s.tabs ∧ 0 < (s.slot t i).open_count := by
  have ht := h.slot_mem hc hx
  have hs := h.slots t ht i
  have hpos : 0 < holding Call.slot s.calls (.io, t, i) := holding_pos.2 ⟨c, hc, hx⟩
  refine ⟨ht, ?_⟩
  rw [hs.open_count]
  omega

theorem SlotOk.status {calls : List Call} {f : file} (h : SlotOk calls t i f) (hpos : 0 < f.open_count) :
    f.status = .FD_OPENED ∨ f.status = .FD_CLOSED := by
  have hun := h.unused
  cases hst : f.status with
  | FD_OPENED => exact Or.inl rfl
  | FD_CLOSED => exact Or.inr rfl
  | FD_NONE => exact absurd (hun (Or.inl hst)) (Nat.ne_of_gt hpos)
  | FD_INIT => exact absurd (hun (Or.inr hst)) (Nat.ne_of_gt hpos)

theorem file.names_eq {f : file} {node : Node} (hst : f.status = .FD_OPENED ∨ f.status = .FD_CLOSED)
    (hpos : 0 < f.open_count) (hn : f.node = some node) : f.names = some node := by
  unfold file.names
  rw [if_pos (hst.imp id fun hc => ⟨hc, Nat.ne_of_gt hpos⟩), hn]

theorem file.names_none {f : file} (h1 : f.status ≠ .FD_OPENED)
    (h2 : f.status ≠ .FD_CLOSED ∨ f.open_count = 0) : f.names = none := by
  unfold file.names
  apply if_neg
  rintro (h | ⟨h, h0⟩)
  · exact h1 h
  · exact h2.elim (fun hc => hc h) h0

theorem file.names_unused {f : file} (h : f.status = .FD_NONE ∨ f.status = .FD_INIT) : f.names = none := by
  apply file.names_none
  · rcases h with h | h <;> simp [h]
  · left
    rcases h with h | h <;> simp [h]

theorem Ok.named_pos (h : Ok s) (ht : t ∈ s.tabs) {node : Node} (hn : (s.slot t i).names = some node) :
    0 < s.open_count node ∧ 0 < s.ref_count node := by
  have hpos : 0 < s.named node :=
    refs_pos.2 ⟨(t, i), Finset.mem_product.2 ⟨ht, Finset.mem_univ i⟩, hn⟩
  have h1 := h.open_count node
  have h2 := h.ref_count node
  omega

theorem file_ok (ht : t ∈ s.tabs) : s.file t i = .ok (s.slot t i) := by
  unfold Sys.file Sys.fs
  rw [if_pos ht]
  rfl

theorem Ok.not_dying (h : Ok s) (ht : (s.table t).fs_count ≠ 0) : holding Call.dying s.calls t = 0 := by
  apply holding_eq_zero
  intro c hc hd
  obtain ⟨k, hk⟩ := Call.swept_of_dying hd
  exact ht ((h.inside c hc).swept t k hk).2.1

theorem fs_ok (ht : t ∈ s.tabs) : s.fs t = .ok (s.table t) := if_pos ht

/-- A process that is not in a call. -/
theorem Sys.runs.busyCount (h : s.runs pid) : busyCount s.calls pid = 0 := by
  apply List.countP_eq_zero.2
  intro c hc
  simpa using h.2 c hc

end

/-! ## Changes of the state -/

section

variable {s : Sys} {t : Tab} {i : Fd} {old new l : List Call}

@[simp] theorem setFile_slot_self (s : Sys) (t : Tab) (i : Fd) (f : file) :
    (s.setFile t i f).slot t i = f := by
  simp [Sys.setFile, Sys.setTable, Sys.slot]

theorem setFile_file (f : file) (ht : t ∈ s.tabs) : (s.setFile t i f).file t i = .ok f := by
  rw [file_ok (show t ∈ (s.setFile t i f).tabs from ht), setFile_slot_self]

theorem setFile_slot_ne (s : Sys) {t u : Tab} {i j : Fd} (f : file) (h : (u, j) ≠ (t, i)) :
    (s.setFile t i f).slot u j = s.slot u j := by
  unfold Sys.setFile Sys.setTable Sys.slot
  by_cases hu : u = t
  · subst hu
    have hj : j ≠ i := fun he => h (by rw [he])
    simp [hj]
  · simp [hu]

@[simp] theorem setFile_self (s : Sys) (t : Tab) (i : Fd) : s.setFile t i (s.slot t i) = s := by
  simp [Sys.setFile, Sys.setTable, Sys.slot]

theorem edit_setFile {f : file} {o r v : Node → Nat} {q : Pid → Int} (m : Moves s.calls old new l) :
    Edit s { s.setFile t i f with
      calls := l, open_count := o, ref_count := r, vop_closes := v, result := q } t i old new := by
  refine ⟨rfl, rfl, rfl, rfl, fun u j hx => setFile_slot_ne s f hx, ?_, ?_, m⟩
  all_goals
    intro u
    simp only [Sys.setFile, Sys.setTable, update_apply]
    split
    · next hu => rw [hu]
    · rfl

/-- What a change of a file must respect, in the parts of the state. -/
theorem Ok.setFile (h : Ok s) {f : file} {o r v : Node → Nat} {q : Pid → Int}
    (m : Moves s.calls old new l) (ht : t ∈ s.tabs)
    (hat : ∀ c ∈ old ++ new, ∀ x, c.slot = some x → x.2 = (t, i)) (hslot : SlotOk l t i f)
    (hopen : ∀ node, o node + holds (s.slot t i).names node + holding Call.opened old node =
      s.open_count node + holds f.names node + holding Call.opened new node)
    (href : ∀ node, r node + holds (s.slot t i).names node + holding Call.held old node =
      s.ref_count node + holds f.names node + holding Call.held new node)
    (hdying : ∀ u, holding Call.dying new u = holding Call.dying old u)
    (hbusy : ∀ pid, busyCount s.calls pid + busyCount new pid ≤ 1 + busyCount old pid)
    (hin : ∀ c ∈ new, c.Inside (s.setFile t i f))
    (hnone : (s.slot t i).status = .FD_NONE →
      f.status = .FD_NONE ∨ holding Call.dying s.calls t = 0) :
    Ok { s.setFile t i f with
      calls := l, open_count := o, ref_count := r, vop_closes := v, result := q } := by
  have hself := setFile_slot_self s t i f
  apply h.edit (edit_setFile m) ht hat
  · show SlotOk l t i ((s.setFile t i f).slot t i)
    rw [hself]
    exact hslot
  · intro node
    show o node + _ + _ = _ + holds ((s.setFile t i f).slot t i).names node + _
    rw [hself]
    exact hopen node
  · intro node
    show r node + _ + _ = _ + holds ((s.setFile t i f).slot t i).names node + _
    rw [hself]
    exact href node
  · exact hdying
  · exact hbusy
  · intro c hc
    exact ⟨(hin c hc).procs, (hin c hc).own, (hin c hc).swept, (hin c hc).nodup⟩
  · show _ → ((s.setFile t i f).slot t i).status = _ ∨ _
    rw [hself]
    exact hnone

theorem Call.Inside.setFile {c : Call} {f : file} (h : c.Inside s)
    (hnone : c.dying = some t → (s.slot t i).status = .FD_NONE → f.status = .FD_NONE) :
    c.Inside (s.setFile t i f) := by
  have e : Edit s (s.setFile t i f) t i [] [] := edit_setFile (Moves.refl s.calls)
  apply e.inside h
  rw [setFile_slot_self]
  exact hnone

theorem SlotOk.moved {calls calls' : List Call} {f f' : file} (h : SlotOk calls t i f)
    (m : Moves calls old new calls') (hfd : f'.fd = f.fd)
    (hio : f'.open_count + holding Call.slot old (.io, t, i) + (if f.status = .FD_OPENED then 1 else 0) =
      f.open_count + holding Call.slot new (.io, t, i) + if f'.status = .FD_OPENED then 1 else 0)
    (hop : (if f'.status = .FD_INIT then 1 else 0) + holding Call.slot old (.opening, t, i) =
      (if f.status = .FD_INIT then 1 else 0) + holding Call.slot new (.opening, t, i))
    (hcl : (if f'.status = .FD_CLOSED ∧ f'.open_count = 0 then 1 else 0) +
        holding Call.slot old (.closing, t, i) =
      (if f.status = .FD_CLOSED ∧ f.open_count = 0 then 1 else 0) +
        holding Call.slot new (.closing, t, i))
    (hun : f'.status = .FD_NONE ∨ f'.status = .FD_INIT → f'.open_count = 0)
    (hnode : f'.status = .FD_OPENED ∨ f'.status = .FD_CLOSED → f'.node ≠ none) :
    SlotOk calls' t i f' := by
  have h1 := m.holding Call.slot (.io, t, i)
  have h2 := m.holding Call.slot (.opening, t, i)
  have h3 := m.holding Call.slot (.closing, t, i)
  have h4 := h.open_count
  have h5 := h.opening
  have h6 := h.closing
  constructor
  · rw [hfd, h.fd]
  · omega
  · omega
  · omega
  · exact hun
  · exact hnode

/-- What a step that leaves the files alone must respect; only the calls on the file `i` of `t` may
change. -/
theorem Ok.same (h : Ok s) {o r v : Node → Nat} {q : Pid → Int} (m : Moves s.calls old new l)
    (ht : t ∈ s.tabs) (hat : ∀ c ∈ old ++ new, ∀ x, c.slot = some x → x.2 = (t, i))
    (hslot : ∀ k, holding Call.slot new (k, t, i) = holding Call.slot old (k, t, i))
    (hopen : ∀ node, o node + holding Call.opened old node =
      s.open_count node + holding Call.opened new node)
    (href : ∀ node, r node + holding Call.held old node = s.ref_count node + holding Call.held new node)
    (hdying : ∀ u, holding Call.dying new u = holding Call.dying old u)
    (hbusy : ∀ pid, busyCount s.calls pid + busyCount new pid ≤ 1 + busyCount old pid)
    (hin : ∀ c ∈ new, c.Inside s) :
    Ok { s with calls := l, open_count := o, ref_count := r, vop_closes := v, result := q } := by
  have hself := setFile_self s t i
  have hs := h.slots t ht i
  rw [← hself]
  apply h.setFile m ht hat
  · apply hs.moved m rfl
    · rw [hslot]
    · rw [hslot]
    · rw [hslot]
    · exact hs.unused
    · exact hs.node
  · intro node
    have := hopen node
    omega
  · intro node
    have := href node
    omega
  · exact hdying
  · exact hbusy
  · rw [hself]
    exact hin
  · exact fun hst => Or.inl hst

theorem closes_mono {s' : Sys} (ho : ∀ node, s.open_count node ≤ s'.open_count node)
    (hv : s'.vop_closes = s.vop_closes) : Closes s s' := by
  intro node
  rw [hv, if_neg]
  · rfl
  · rintro ⟨h1, h2⟩
    have := ho node
    omega

theorem inode_open_dec_ok (node : Node) (h : 0 < s.open_count node) :
    inode_open_dec s node = .ok { s with
      open_count := update s.open_count node (s.open_count node - 1)
      vop_closes := update s.vop_closes node
        (s.vop_closes node + if s.open_count node = 1 then 1 else 0) } := by
  unfold inode_open_dec
  rw [if_neg (Nat.ne_of_gt h)]
  by_cases h1 : s.open_count node = 1
  · simp [h1]
  · have h2 : s.open_count node - 1 ≠ 0 := by omega
    simp [h1, h2]

theorem closes_dec {s' : Sys} {node : Node} (h : 0 < s.open_count node)
    (ho : s'.open_count = update s.open_count node (s.open_count node - 1))
    (hv : s'.vop_closes = update s.vop_closes node
      (s.vop_closes node + if s.open_count node = 1 then 1 else 0)) : Closes s s' := by
  intro n
  rw [ho, hv]
  by_cases hn : n = node
  · subst hn
    simp only [update_self]
    by_cases h1 : s.open_count n = 1
    · simp [h1]
    · have h2 : s.open_count n - 1 ≠ 0 := by omega
      simp [h1, h2]
  · simp only [update_of_ne hn]
    rw [if_neg]
    · rfl
    · omega

theorem inode_ref_dec_ok (node : Node) (h : 0 < s.ref_count node) :
    inode_ref_dec s node =
      .ok { s with ref_count := update s.ref_count node (s.ref_count node - 1) } :=
  if_neg (Nat.ne_of_gt h)

/-- The count after one more, and after one less. -/
theorem update_add_holds (r : Node → Nat) (node n : Node) :
    update r node (r node + 1) n = r n + holds (some node) n := by
  by_cases h : n = node
  · subst h
    simp
  · rw [update_of_ne h, holds_ne (Ne.symm h)]
    rfl

theorem update_sub_holds (r : Node → Nat) (node n : Node) (h : 0 < r node) :
    update r node (r node - 1) n + holds (some node) n = r n := by
  by_cases hn : n = node
  · subst hn
    simp
    omega
  · rw [update_of_ne hn, holds_ne (Ne.symm hn)]
    rfl

end

/-! ## The way back -/

/-- The call that the way back goes on with. -/
def Next.calls (t : Tab) (i : Fd) : Next → List Call
  | .ret _ _ => []
  | .closeall pid => [.closeall pid t (i + 1)]
  | .destroy owner => [.destroy t (i + 1) owner]

/-- A call whose way back is `next` may come in for the calls `old`. -/
structure Goes (s : Sys) (t : Tab) (i : Fd) (next : Next) (old : List Call) : Prop where
  inside : (Call.closed t i next).Inside s
  dying : ∀ u, holding Call.dying [.closed t i next] u = holding Call.dying old u
  busy : ∀ pid, busyCount s.calls pid + busyCount [.closed t i next] pid ≤ 1 + busyCount old pid

section

variable {s s' : Sys} {t : Tab} {i : Fd} {old new l : List Call} {next : Next} {c : Call}

theorem busyCount_singleton (c : Call) (pid : Pid) :
    busyCount [c] pid = if pid ∈ c.pids then 1 else 0 := by
  simp [busyCount, List.countP_singleton]

@[simp] theorem busyCount_nil (pid : Pid) : busyCount [] pid = 0 := rfl

/-- A call takes the place of another one with the same processes. -/
theorem Ok.busy_same {d : Call} (h : Ok s) (hp : d.pids = c.pids) (pid : Pid) :
    busyCount s.calls pid + busyCount [d] pid ≤ 1 + busyCount [c] pid := by
  have h1 := h.busy pid
  rw [busyCount_singleton, busyCount_singleton, hp]
  omega

/-- A call comes in where its process makes one. -/
theorem Ok.busy_start {d : Call} {pid : Pid} (h : Ok s) (hr : s.runs pid) (hp : d.pids = [pid]) (p : Pid) :
    busyCount s.calls p + busyCount [d] p ≤ 1 + busyCount [] p := by
  rw [busyCount_singleton, hp, busyCount_nil]
  by_cases he : p = pid
  · subst he
    rw [hr.busyCount]
    simp
  · have h1 := h.busy p
    simpa [he] using h1

theorem Next.calls_at {k : Use × Tab × Fd} (hc : c ∈ next.calls t i) : c.slot ≠ some k := by
  cases next <;> simp [Next.calls] at hc <;> subst hc <;> simp [Call.slot]

theorem Next.holding_calls {π : Type} [DecidableEq π] {f : Call → Option π}
    (h1 : ∀ pid t k, f (.closeall pid t k) = none) (h2 : ∀ t k owner, f (.destroy t k owner) = none)
    (t : Tab) (i : Fd) (next : Next) (x : π) : holding f (next.calls t i) x = 0 := by
  cases next <;> simp [Next.calls, h1, h2]

theorem Next.calls_dying (t : Tab) (i : Fd) (next : Next) (u : Tab) :
    holding Call.dying (next.calls t i) u = holding Call.dying [.closed t i next] u := by
  cases next <;> simp [Next.calls, Call.dying, Call.swept, Next.swept]

theorem Next.calls_busy (t : Tab) (i : Fd) (next : Next) (pid : Pid) :
    busyCount (next.calls t i) pid ≤ busyCount [.closed t i next] pid := by
  cases next <;> simp [Next.calls, busyCount_singleton, Call.pids, Next.pids]

theorem Next.calls_inside (h : (Call.closed t i next).Inside s)
    (hst : ∀ owner, next = .destroy owner → (s.slot t i).status = .FD_NONE) :
    ∀ c ∈ next.calls t i, c.Inside s := by
  intro c hc
  cases next with
  | ret pid value => cases hc
  | closeall pid =>
    obtain rfl := List.mem_singleton.1 hc
    exact ⟨h.procs, h.own, nofun, h.nodup⟩
  | destroy owner =>
    obtain rfl := List.mem_singleton.1 hc
    refine ⟨h.procs, h.own, ?_, h.nodup⟩
    intro u k hx
    obtain ⟨rfl, rfl⟩ : t = u ∧ (i : Nat) + 1 = k := by simpa [Call.swept] using hx
    obtain ⟨ht, h0, hj⟩ := h.swept t i rfl
    refine ⟨ht, h0, fun j hlt => ?_⟩
    rcases Nat.lt_or_eq_of_le (Nat.le_of_lt_succ hlt) with hlt | heq
    · exact hj j hlt
    · rw [Fin.ext heq]
      exact hst owner rfl

theorem goNext_ok (next : Next)
    (h : ∀ owner, next = .destroy owner → t ∈ s.tabs ∧ (s.slot t i).status = .FD_NONE) :
    ∃ q, goNext s t i next = .ok { s with calls := next.calls t i ++ s.calls, result := q } := by
  cases next with
  | ret pid value => exact ⟨_, rfl⟩
  | closeall pid => exact ⟨s.result, rfl⟩
  | destroy owner =>
    obtain ⟨ht, hst⟩ := h owner rfl
    refine ⟨s.result, ?_⟩
    unfold goNext
    simp only [file_ok ht]
    show (if (s.slot t i).status ≠ .FD_NONE then _ else _) = _
    rw [if_neg (not_not.2 hst)]
    rfl

/-- The table of a call that comes back. -/
theorem Goes.mem (h : Ok s) (g : Goes s t i next old) : t ∈ s.tabs := by
  cases next with
  | ret pid value | closeall pid =>
    obtain ⟨p, hp, hpt⟩ := g.inside.own t rfl
    exact (h.of_proc (g.inside.procs p hp) hpt).1
  | destroy owner => exact (g.inside.swept t i rfl).1

/-! ## A file is used less -/

/-- The file `i` comes to `f`, where it is used once less than before by the calls `old`. -/
structure Lower (s : Sys) (t : Tab) (i : Fd) (old : List Call) (f : file) : Prop where
  pos : 0 < (s.slot t i).open_count
  status : f.status = .FD_OPENED ∨ f.status = .FD_CLOSED
  fd : f.fd = (s.slot t i).fd
  node : f.node = (s.slot t i).node
  count : f.open_count + holding Call.slot old (.io, t, i) +
      (if (s.slot t i).status = .FD_OPENED then 1 else 0) =
    (s.slot t i).open_count + if f.status = .FD_OPENED then 1 else 0
  io : ∀ c ∈ old, ∀ x, c.slot = some x → x = (.io, t, i)
  opened : ∀ c ∈ old, c.opened = none
  held : ∀ c ∈ old, c.held = none

variable {f : file}

theorem Lower.status_ne (h : Lower s t i old f) : f.status ≠ .FD_INIT ∧ f.status ≠ .FD_NONE := by
  rcases h.status with h0 | h0 <;> simp [h0]

theorem Lower.opened_zero (h : Lower s t i old f) (n : Node) : holding Call.opened old n = 0 := by
  apply holding_eq_zero
  intro c hc
  simp [h.opened c hc]

theorem Lower.held_zero (h : Lower s t i old f) (n : Node) : holding Call.held old n = 0 := by
  apply holding_eq_zero
  intro c hc
  simp [h.held c hc]

theorem Lower.use_zero (h : Lower s t i old f) {k : Use} (hk : k ≠ .io) :
    holding Call.slot old (k, t, i) = 0 := by
  apply holding_eq_zero
  intro c hc hx
  exact hk (congrArg Prod.fst (h.io c hc _ hx))

/-- Before, the file names an inode with a count of its own. -/
theorem Ok.named_of_pos (h : Ok s) (ht : t ∈ s.tabs) (hpos : 0 < (s.slot t i).open_count) :
    ∃ node, (s.slot t i).node = some node ∧ (s.slot t i).names = some node ∧
      0 < s.open_count node ∧ 0 < s.ref_count node := by
  have hs := h.slots t ht i
  have hst := hs.status hpos
  obtain ⟨node, hn⟩ := Option.ne_none_iff_exists'.1 (hs.node hst)
  have hnames := file.names_eq hst hpos hn
  exact ⟨node, hn, hnames, h.named_pos ht hnames⟩

/-- An opened file is used by itself. -/
theorem Lower.closed (h : Ok s) (ht : t ∈ s.tabs) (lo : Lower s t i old f) (m : Moves s.calls old [] l)
    (h0 : f.open_count = 0) : f.status = .FD_CLOSED := by
  have hs := (h.slots t ht i).open_count
  have hm := m.holding Call.slot (.io, t, i)
  have hc := lo.count
  rw [holding_nil] at hm
  refine lo.status.resolve_left fun h1 => ?_
  rw [if_pos h1] at hc
  omega

theorem Lower.slotOk (h : Ok s) (ht : t ∈ s.tabs) (lo : Lower s t i old f) (m : Moves s.calls old [] l)
    {l' : List Call} (m' : Moves s.calls old new l') (h1 : holding Call.slot new (.io, t, i) = 0)
    (h2 : holding Call.slot new (.opening, t, i) = 0)
    (h3 : holding Call.slot new (.closing, t, i) = if f.open_count = 0 then 1 else 0) :
    SlotOk l' t i f := by
  have hs := h.slots t ht i
  have hpos := lo.pos
  have hst : (s.slot t i).status ≠ .FD_INIT := by
    rcases hs.status hpos with h0 | h0 <;> simp [h0]
  have hcl : f.status = .FD_CLOSED ∧ f.open_count = 0 ↔ f.open_count = 0 :=
    ⟨fun hc => hc.2, fun hc => ⟨lo.closed h ht m hc, hc⟩⟩
  have hcl₀ : ¬ ((s.slot t i).status = .FD_CLOSED ∧ (s.slot t i).open_count = 0) :=
    fun hc => Nat.ne_of_gt hpos hc.2
  have hcount := lo.count
  apply hs.moved m' lo.fd
  · omega
  · simp only [if_neg lo.status_ne.1, if_neg hst, lo.use_zero (k := .opening) nofun, h2]
  · simp only [hcl, if_neg hcl₀, lo.use_zero (k := .closing) nofun, h3, Nat.add_zero, Nat.zero_add]
  · rintro (h0 | h0)
    · exact absurd h0 lo.status_ne.2
    · exact absurd h0 lo.status_ne.1
  · intro _
    obtain ⟨node, hn, -⟩ := h.named_of_pos ht hpos
    rw [lo.node, hn]
    exact Option.some_ne_none node

/-- Where the last use goes, the call goes on in `vop_close`. -/
theorem Ok.lastUse (h : Ok s) (g : Goes s t i next old) (m : Moves s.calls old [] l)
    (lo : Lower s t i old f) (h0 : f.open_count = 0) :
    Ends (Fine s) (fun _ => False) (filemap_free ({ s with calls := l }.setFile t i f) t i next) := by
  have ht := g.mem h
  have hst := lo.closed h ht m h0
  obtain ⟨node, hn, hnames, hopen, href⟩ := h.named_of_pos ht lo.pos
  have hst₀ : (s.slot t i).status ≠ .FD_NONE := by
    rcases (h.slots t ht i).status lo.pos with h1 | h1 <;> simp [h1]
  unfold filemap_free
  simp only [setFile_file (s := { s with calls := l }) f ht]
  show Ends _ _ (if ¬ (f.status = .FD_INIT ∨ f.status = .FD_CLOSED) ∨ f.open_count ≠ 0 then _
    else if f.status = .FD_CLOSED then _ else _)
  rw [if_neg (by simp [hst, h0]), if_pos hst, lo.node, hn]
  show Ends _ _ (inode_open_dec ({ s with calls := l }.setFile t i f) node >>= _)
  have hdec := inode_open_dec_ok (s := { s with calls := l }.setFile t i f) node hopen
  rw [hdec]
  have hnames' : f.names = none := file.names_none (by simp [hst]) (Or.inr h0)
  refine ⟨h.setFile (o := update s.open_count node (s.open_count node - 1)) (r := s.ref_count)
    (m.push (.closing t i node next)) ht ?_ (lo.slotOk h ht m (m.push _) ?_ ?_ ?_) ?_ ?_
    g.dying g.busy ?_ ?_, closes_dec hopen rfl rfl⟩
  · intro c hc x hx
    rcases List.mem_append.1 hc with hc | hc
    · rw [lo.io c hc x hx]
    · obtain rfl := List.mem_singleton.1 hc
      obtain rfl := Option.some_inj.1 hx
      rfl
  · simp [Call.slot, holds]
  · simp [Call.slot, holds]
  · simp [Call.slot, h0]
  · intro n
    have := update_sub_holds s.open_count node n hopen
    rw [hnames, hnames', lo.opened_zero]
    simpa [Call.opened] using this
  · intro n
    rw [hnames, hnames', lo.held_zero]
    simp [Call.held]
  · intro c hc
    obtain rfl := List.mem_singleton.1 hc
    exact Call.Inside.setFile ⟨g.inside.procs, g.inside.own, g.inside.swept, g.inside.nodup⟩
      fun _ hc => absurd hc hst₀
  · exact fun hc => absurd hc hst₀

/-- Where other uses are left, the call goes back. -/
theorem Ok.notLast (h : Ok s) (g : Goes s t i next old) (m : Moves s.calls old [] l)
    (lo : Lower s t i old f) (h0 : f.open_count ≠ 0) (hn : ∀ owner, next ≠ .destroy owner) :
    Ends (Fine s) (fun _ => False) (goNext ({ s with calls := l }.setFile t i f) t i next) := by
  have ht := g.mem h
  obtain ⟨q, hq⟩ := goNext_ok (s := { s with calls := l }.setFile t i f) (t := t) (i := i) next
    fun owner ho => absurd ho (hn owner)
  have hst₀ : (s.slot t i).status ≠ .FD_NONE := by
    rcases (h.slots t ht i).status lo.pos with h1 | h1 <;> simp [h1]
  obtain ⟨node, hnode, hnames, hopen, href⟩ := h.named_of_pos ht lo.pos
  have hnames' : f.names = some node :=
    file.names_eq lo.status (Nat.pos_of_ne_zero h0) (lo.node.trans hnode)
  rw [hq]
  have hz : ∀ k, holding Call.slot (next.calls t i) k = 0 :=
    Next.holding_calls (fun _ _ _ => rfl) (fun _ _ _ => rfl) t i next
  refine ⟨h.setFile (m.append (next.calls t i)) ht ?_
    (lo.slotOk h ht m (m.append _) (hz _) (hz _) (by rw [hz, if_neg h0])) ?_ ?_ ?_ ?_ ?_ ?_,
    closes_mono (fun _ => Nat.le_refl _) rfl⟩
  · intro c hc x hx
    rcases List.mem_append.1 hc with hc | hc
    · rw [lo.io c hc x hx]
    · exact absurd hx (Next.calls_at hc)
  · intro n
    have hz : holding Call.opened (next.calls t i) n = 0 :=
      Next.holding_calls (fun _ _ _ => rfl) (fun _ _ _ => rfl) t i next n
    rw [hnames, hnames', lo.opened_zero, hz]
    rfl
  · intro n
    have hz : holding Call.held (next.calls t i) n = 0 :=
      Next.holding_calls (fun _ _ _ => rfl) (fun _ _ _ => rfl) t i next n
    rw [hnames, hnames', lo.held_zero, hz]
    rfl
  · intro u
    rw [Next.calls_dying, g.dying]
  · intro pid
    have h1 := g.busy pid
    have h2 := Next.calls_busy t i next pid
    omega
  · intro c hc
    refine Call.Inside.setFile ?_ fun _ hc => absurd hc hst₀
    exact Next.calls_inside g.inside (fun owner ho => absurd ho (hn owner)) c hc
  · exact fun hc => absurd hc hst₀

/-- The end of `filemap_close` and of `filemap_release`. -/
theorem Ok.lowered (h : Ok s) (g : Goes s t i next old) (m : Moves s.calls old [] l)
    (lo : Lower s t i old f) (hzero : ∀ owner, next = .destroy owner → f.open_count = 0) :
    Ends (Fine s) (fun _ => False)
      (if f.open_count = 0 then filemap_free ({ s with calls := l }.setFile t i f) t i next
        else goNext ({ s with calls := l }.setFile t i f) t i next) := by
  rw [ends_ite]
  constructor
  · intro h0
    exact h.lastUse g m lo h0
  · intro h0
    exact h.notLast g m lo h0 fun owner ho => h0 (hzero owner ho)

end

/-! ## `file_open` -/

section

variable {s : Sys} {t : Tab} {i : Fd} {pid : Pid} {c d : Call}

theorem setFile_setFile (s : Sys) (t : Tab) (i : Fd) (f g : file) :
    (s.setFile t i f).setFile t i g = s.setFile t i g := by
  simp [Sys.setFile, Sys.setTable]

theorem Closes.refl (s : Sys) : Closes s s := closes_mono (fun _ => Nat.le_refl _) rfl

/-- References that come from elsewhere, or go there. -/
theorem Ok.others (h : Ok s) {r o : Node → Nat}
    (hr : ∀ node, r node + s.others node = s.ref_count node + o node) :
    Ok { s with ref_count := r, others := o } := by
  refine ⟨h.slots, h.open_count, ?_, h.procs, h.fs_count, ?_, h.dying, h.busy⟩
  · intro node
    have h1 := hr node
    have h2 := h.ref_count node
    show r node = s.named node + holding Call.held s.calls node + refs s.tabs s.pwd node + o node
    omega
  · intro c hc
    exact ⟨(h.inside c hc).procs, (h.inside c hc).own, (h.inside c hc).swept, (h.inside c hc).nodup⟩

theorem Ok.ret (h : Ok s) (pid : Pid) (value : Int) : Fine s (s.ret pid value) := by
  refine ⟨⟨h.slots, h.open_count, h.ref_count, h.procs, h.fs_count, ?_, h.dying, h.busy⟩, Closes.refl s⟩
  intro c hc
  exact ⟨(h.inside c hc).procs, (h.inside c hc).own, (h.inside c hc).swept, (h.inside c hc).nodup⟩

theorem Ok.get_filemap (h : Ok s) (hp : pid ∈ s.procs) :
    ∃ t, s.fs_struct pid = some t ∧ t ∈ s.tabs ∧ (s.table t).fs_count ≠ 0 ∧
      get_filemap s pid = .ok t := by
  obtain ⟨t, ht, hpt⟩ := h.procs pid hp
  have h0 := (h.of_proc hp hpt).2
  refine ⟨t, hpt, ht, h0, ?_⟩
  unfold filetable.get_filemap
  rw [hpt]
  show (s.fs t >>= _) = _
  rw [fs_ok ht]
  exact if_neg h0

/-- A file that `filemap_alloc` may take is free. -/
theorem freeFile_status {fs : fs_struct} {fd : Int} (hf : freeFile fs fd = .inr i) :
    (fs.filemap i).status = .FD_NONE := by
  unfold freeFile at hf
  split at hf
  · split at hf
    · next j hj =>
      obtain rfl := Sum.inr.inj hf
      simpa using List.find?_some hj
    · cases hf
  · split at hf
    · split at hf
      · next hst =>
        obtain rfl := Sum.inr.inj hf
        exact hst
      · cases hf
    · cases hf

theorem Ok.filemap_alloc (h : Ok s) (hp : pid ∈ s.procs) (fd : Int) :
    (∃ ret, filemap_alloc s pid fd = .ok (.inl ret)) ∨
      ∃ t i, s.fs_struct pid = some t ∧ t ∈ s.tabs ∧ (s.table t).fs_count ≠ 0 ∧
        (s.slot t i).status = .FD_NONE ∧ (s.slot t i).open_count = 0 ∧
        filemap_alloc s pid fd =
          .ok (.inr (t, i, s.setFile t i { s.slot t i with status := .FD_INIT, node := none })) := by
  obtain ⟨t, hpt, ht, h0, hg⟩ := h.get_filemap hp
  unfold filetable.filemap_alloc
  rw [hg]
  show (∃ ret, (s.fs t >>= _) = _) ∨ ∃ t' i, _ ∧ _ ∧ _ ∧ _ ∧ _ ∧ (s.fs t >>= _) = _
  rw [fs_ok ht]
  cases hf : freeFile (s.table t) fd with
  | inl ret =>
    left
    refine ⟨ret, ?_⟩
    simp only [bind, Except.bind, hf]
    rfl
  | inr i =>
    right
    have hst : (s.slot t i).status = .FD_NONE := freeFile_status hf
    have hcount := (h.slots t ht i).unused (Or.inl hst)
    refine ⟨t, i, hpt, ht, h0, hst, hcount, ?_⟩
    simp only [bind, Except.bind, hf]
    exact if_neg (not_not.2 hcount)

theorem filemap_free_init {s : Sys} {f : file} (ht : t ∈ s.tabs) (hf : s.slot t i = f)
    (hst : f.status = .FD_INIT) (h0 : f.open_count = 0) (pid : Pid) (value : Int) :
    filemap_free s t i (.ret pid value) =
      .ok ((s.setFile t i { f with status := .FD_NONE }).ret pid value) := by
  subst hf
  unfold filemap_free
  rw [file_ok ht]
  show (if ¬ ((s.slot t i).status = .FD_INIT ∨ _) ∨ _ then _ else if (s.slot t i).status = _ then _ else _) = _
  rw [if_neg (by simp [hst, h0]), if_neg (by simp [hst])]
  rfl

/-- A file comes free that no call keeps any more. -/
theorem Ok.freed (h : Ok s) (hc : c ∈ s.calls) (hx : c.slot = some (.opening, t, i))
    (ho : c.opened = none) (hh : c.held = none) (hd : c.dying = none) (value : Int) :
    Ends (Fine s) (fun _ => False) (filemap_free (s.drop c) t i (.ret pid value)) := by
  obtain ⟨ht, hst, h0⟩ := h.of_opening hc hx
  rw [filemap_free_init (s := s.drop c) ht rfl hst h0]
  have hn := file.names_unused (Or.inr hst)
  have hn' : file.names { s.slot t i with status := .FD_NONE } = none := file.names_unused (Or.inl rfl)
  refine ⟨h.setFile (f := { s.slot t i with status := .FD_NONE }) (o := s.open_count)
    (r := s.ref_count) (Moves.drop hc) ht ?_ ?_ ?_ ?_ ?_ ?_ ?_ ?_,
    closes_mono (fun _ => Nat.le_refl _) rfl⟩
  · intro d hd y hy
    obtain rfl : d = c := by simpa using hd
    rw [hx] at hy
    obtain rfl := Option.some_inj.1 hy
    rfl
  · apply (h.slots t ht i).moved (Moves.drop hc)
    · rfl
    · simp [hx, hst, holds]
    · simp [hx, hst]
    · simp [hx, hst, holds]
    · exact fun _ => h0
    · simp
  · intro node
    simp [ho, hn, hn']
  · intro node
    simp [hh, hn, hn']
  · simp [hd]
  · intro pid
    have := h.busy pid
    simp
    omega
  · exact fun _ hd => nomatch hd
  · exact fun _ => Or.inl rfl

/-- A call on a file goes on as one of the same kind, by the same process and on the same file. -/
structure SameUse (c d : Call) (t : Tab) (i : Fd) : Prop where
  pids : d.pids = c.pids
  tab : d.tab = c.tab
  swept : d.swept = c.swept
  slot : d.slot = c.slot
  at_file : ∀ x, c.slot = some x → x.2 = (t, i)

theorem Ok.goesOn (h : Ok s) (hc : c ∈ s.calls) (hs : SameUse c d t i) (ht : t ∈ s.tabs)
    {o r v : Node → Nat} {q : Pid → Int}
    (hopen : ∀ node, o node + holds c.opened node = s.open_count node + holds d.opened node)
    (href : ∀ node, r node + holds c.held node = s.ref_count node + holds d.held node) :
    Ok { s with
      calls := d :: (s.drop c).calls, open_count := o, ref_count := r, vop_closes := v, result := q } := by
  refine h.same (i := i) ((Moves.drop hc).push d) ht ?_ ?_ ?_ ?_ ?_ (h.busy_same hs.pids) ?_
  · intro e he x hx
    have hex : e.slot = c.slot := by
      rcases List.mem_append.1 he with he | he
      · rw [List.mem_singleton.1 he]
      · rw [List.mem_singleton.1 he, hs.slot]
    rw [hex] at hx
    exact hs.at_file x hx
  · intro k
    simp [hs.slot]
  · intro node
    simpa using hopen node
  · intro node
    simpa using href node
  · intro u
    simp [Call.dying, hs.swept]
  · intro e he
    obtain rfl := List.mem_singleton.1 he
    have hin := h.inside c hc
    constructor
    · rw [hs.pids]
      exact hin.procs
    · rw [hs.tab, hs.pids]
      exact hin.own
    · rw [hs.swept]
      exact hin.swept
    · rw [hs.pids]
      exact hin.nodup

theorem Ok.file_open (h : Ok s) (hr : s.runs pid) (open_flags : Word) :
    Ends (Fine s) (fun _ => False) (file_open s pid open_flags) := by
  unfold filetable.file_open
  cases accmode open_flags with
  | none => exact h.ret pid _
  | some mode =>
    obtain ⟨readable, writable⟩ := mode
    rcases h.filemap_alloc hr.1 NO_FD with ⟨ret, ha⟩ | ⟨t, i, hpt, ht, hcount, hst, h0, ha⟩
    · simp only [ha]
      exact h.ret pid ret
    · simp only [ha]
      have hs := h.slots t ht i
      have hn := file.names_unused (Or.inl hst)
      show Ends _ _ (if flag open_flags O_TRUNC = true ∧ ¬ writable = true then _ else _)
      rw [ends_ite]
      constructor
      · -- the file is free again at once
        intro _
        have hfree := filemap_free_init
          (s := s.setFile t i { s.slot t i with status := .FD_INIT, node := none }) (t := t) (i := i)
          (f := { s.slot t i with status := .FD_INIT, node := none }) ht (setFile_slot_self _ _ _ _) rfl
          h0 pid (-E_INVAL)
        have hn' : file.names { s.slot t i with status := .FD_NONE, node := none } = none :=
          file.names_unused (Or.inl rfl)
        rw [hfree, setFile_setFile]
        refine ⟨h.setFile (f := { s.slot t i with status := .FD_NONE, node := none })
          (o := s.open_count) (r := s.ref_count) (Moves.refl _) ht nofun ?_ ?_ ?_ (fun _ => rfl) ?_ nofun
          (fun _ => Or.inl rfl), closes_mono (fun _ => Nat.le_refl _) rfl⟩
        · exact hs.moved (Moves.refl _) rfl (by simp [hst]) (by simp [hst]) (by simp [hst])
            (fun _ => h0) (by simp)
        · intro node
          simp [hn, hn']
        · intro node
          simp [hn, hn']
        · intro p
          have := h.busy p
          simp
          omega
      · intro _
        have hn' : file.names { s.slot t i with status := .FD_INIT, node := none } = none :=
          file.names_unused (Or.inr rfl)
        refine ⟨h.setFile (f := { s.slot t i with status := .FD_INIT, node := none })
          (o := s.open_count) (r := s.ref_count) ((Moves.refl _).push (Call.lookup pid t i open_flags)) ht
          ?_ ?_ ?_ ?_ ?_ (h.busy_start hr rfl) ?_ (fun _ => Or.inr (h.not_dying hcount)),
          closes_mono (fun _ => Nat.le_refl _) rfl⟩
        · intro c hc x hx
          obtain rfl := List.mem_singleton.1 hc
          obtain rfl := Option.some_inj.1 hx
          rfl
        · exact hs.moved ((Moves.refl _).push _) rfl (by simp [hst, Call.slot, holds])
            (by simp [hst, Call.slot]) (by simp [hst, Call.slot, holds]) (fun _ => h0) (by simp)
        · intro node
          simp [hn, hn', Call.opened]
        · intro node
          simp [hn, hn', Call.held]
        · intro u
          simp [Call.dying, Call.swept]
        · intro c hc
          obtain rfl := List.mem_singleton.1 hc
          refine Call.Inside.setFile ⟨?_, ?_, nofun, List.nodup_singleton pid⟩ nofun
          · intro p hp
            obtain rfl := List.mem_singleton.1 hp
            exact hr.1
          · intro u hu
            obtain rfl := Option.some_inj.1 hu
            exact ⟨pid, List.mem_singleton_self pid, hpt⟩

/-- The calls of an open that is in progress follow each other. -/
theorem Ok.opens (h : Ok s) (hc : c ∈ s.calls) (hx : c.slot = some (.opening, t, i))
    (hd : d.slot = some (.opening, t, i)) (hp : d.pids = c.pids) (ht : d.tab = c.tab)
    (hs : d.swept = c.swept) {o r v : Node → Nat} {q : Pid → Int}
    (hopen : ∀ node, o node + holds c.opened node = s.open_count node + holds d.opened node)
    (href : ∀ node, r node + holds c.held node = s.ref_count node + holds d.held node) :
    Ok { s with
      calls := d :: (s.drop c).calls, open_count := o, ref_count := r, vop_closes := v, result := q } := by
  refine h.goesOn (i := i) hc ⟨hp, ht, hs, hd.trans hx.symm, ?_⟩ (h.slot_mem hc hx) hopen href
  intro x hy
  rw [hx] at hy
  rw [← Option.some_inj.1 hy]

theorem Ok.lookedUp (h : Ok s) {open_flags : Word} (hc : .lookup pid t i open_flags ∈ s.calls)
    (answer : Lookup) :
    Ends (Fine s) (· = .vop_create)
      (lookedUp (s.drop (.lookup pid t i open_flags)) pid t i open_flags answer) := by
  have hfree : ∀ ret, Ends (Fine s) (· = .vop_create)
      (filemap_free (s.drop (.lookup pid t i open_flags)) t i (.ret pid ret)) := fun ret =>
    (h.freed hc rfl rfl rfl rfl ret).mono (fun _ hf => hf) fun _ hf => hf.elim
  cases answer with
  | failed ret => exact hfree ret
  | noent parent =>
    unfold filetable.lookedUp
    show Ends _ _ (if flag open_flags O_CREAT = true then if parent ≠ 0 then _ else _ else _)
    rw [ends_ite, ends_ite]
    exact ⟨fun _ => ⟨fun _ => hfree parent, fun _ => rfl⟩, fun _ => hfree _⟩
  | found node ret =>
    unfold filetable.lookedUp
    show Ends _ _ (if flag open_flags O_EXCL = true ∧ flag open_flags O_CREAT = true then _ else
      if ret ≠ 0 then _ else _)
    rw [ends_ite, ends_ite]
    refine ⟨fun _ => ?_, fun _ => ⟨fun _ => ?_, fun _ => ?_⟩⟩
    · -- the reference of the lookup goes to nobody
      have h1 := h.others (r := update s.ref_count node (s.ref_count node + 1))
        (o := update s.others node (s.others node + 1)) fun n => by
          have h1 := update_add_holds s.ref_count node n
          have h2 := update_add_holds s.others node n
          omega
      exact (h1.freed hc rfl rfl rfl rfl _).mono (fun _ hf => ⟨hf.1, hf.2⟩) fun _ hf => hf.elim
    · have hdec := inode_ref_dec_ok
        (s := inode_ref_inc (s.drop (.lookup pid t i open_flags)) node) node
        (by simp [inode_ref_inc])
      rw [hdec]
      refine ⟨h.opens (d := .failed pid t i ret) hc rfl rfl rfl rfl rfl (fun _ => rfl) ?_,
        closes_mono (fun _ => Nat.le_refl _) rfl⟩
      intro n
      by_cases hn : n = node <;> simp [hn, inode_ref_inc, Sys.drop, Call.held]
    · refine ⟨h.opens (d := .truncate pid t i open_flags node) hc rfl rfl rfl rfl rfl
        (update_add_holds s.open_count node) (update_add_holds s.ref_count node), ?_⟩
      refine closes_mono (fun n => ?_) rfl
      exact Nat.le_of_add_right_le (Nat.le_of_eq (update_add_holds s.open_count node n).symm)

theorem filemap_open_ok {f : file} (ht : t ∈ s.tabs) (hst : f.status = .FD_INIT) (hn : f.node ≠ none) :
    filemap_open (s.setFile t i f) t i =
      .ok (s.setFile t i { f with status := .FD_OPENED, open_count := f.open_count + 1 }) := by
  unfold filemap_open
  rw [setFile_file f ht]
  show (if f.status ≠ .FD_INIT ∨ f.node = none then _ else _) = _
  rw [if_neg (by simp [hst, hn]), setFile_setFile]
  rfl

/-- An open fails behind `vop_open_inc`. -/
theorem Ok.openFails (h : Ok s) {open_flags : Word} {node : Node}
    (hc : .truncate pid t i open_flags node ∈ s.calls) (value : Int) {f : file}
    (hf : f.status = .FD_INIT) (hfd : f.fd = (s.slot t i).fd) (h0 : f.open_count = 0) :
    Ends (Fine s) (fun _ => False)
      (inode_open_dec ((s.drop (.truncate pid t i open_flags node)).setFile t i f) node >>=
        fun s => pure (s.push (.failing pid t i node value))) := by
  have hpos : 0 < s.open_count node := by
    have h1 := h.open_count node
    have h2 : 0 < s.opening node := holding_pos.2 ⟨_, hc, rfl⟩
    omega
  obtain ⟨ht, hst, hs0⟩ := h.of_opening hc rfl
  have hdec := inode_open_dec_ok
    (s := (s.drop (.truncate pid t i open_flags node)).setFile t i f) node hpos
  rw [hdec]
  refine ⟨h.setFile (f := f) (o := update s.open_count node (s.open_count node - 1)) (r := s.ref_count)
    ((Moves.drop hc).push (Call.failing pid t i node value)) ht ?_ ?_ ?_ ?_ ?_ (h.busy_same rfl) ?_ ?_,
    closes_dec hpos rfl rfl⟩
  · intro d hd x hx
    rcases List.mem_append.1 hd with hd | hd
    · obtain rfl := List.mem_singleton.1 hd
      obtain rfl := Option.some_inj.1 hx
      rfl
    · obtain rfl := List.mem_singleton.1 hd
      obtain rfl := Option.some_inj.1 hx
      rfl
  · exact (h.slots t ht i).moved ((Moves.drop hc).push _) hfd (by simp [hst, hf, hs0, h0, Call.slot, holds])
      (by simp [hst, hf, Call.slot]) (by simp [hst, hf, Call.slot, holds]) (fun _ => h0) (by simp [hf])
  · intro n
    have := update_sub_holds s.open_count node n hpos
    simpa [file.names_unused (Or.inr hf), file.names_unused (Or.inr hst), Call.opened] using this
  · intro n
    simp [file.names_unused (Or.inr hf), file.names_unused (Or.inr hst), Call.held]
  · intro u
    simp [Call.dying, Call.swept]
  · intro d hd
    obtain rfl := List.mem_singleton.1 hd
    have hin := h.inside _ hc
    exact Call.Inside.setFile ⟨hin.procs, hin.own, nofun, hin.nodup⟩ nofun
  · simp [hst]

/-- An open ends well. -/
theorem Ok.openEnds (h : Ok s) {open_flags : Word} {node : Node}
    (hc : .truncate pid t i open_flags node ∈ s.calls) (value : Int) {f : file}
    (hf : f.status = .FD_INIT) (hn : f.node = some node) (hfd : f.fd = (s.slot t i).fd)
    (h0 : f.open_count = 0) :
    Ends (Fine s) (fun _ => False)
      (filemap_open ((s.drop (.truncate pid t i open_flags node)).setFile t i f) t i >>=
        fun s => pure (s.ret pid value)) := by
  obtain ⟨ht, hst, hs0⟩ := h.of_opening hc rfl
  have hopen := filemap_open_ok (s := s.drop (.truncate pid t i open_flags node)) (i := i) ht hf
    (hn ▸ Option.some_ne_none node)
  have hnames : file.names { f with status := .FD_OPENED, open_count := f.open_count + 1 } = some node :=
    file.names_eq (Or.inl rfl) (Nat.succ_pos _) hn
  rw [hopen]
  refine ⟨h.setFile (o := s.open_count) (r := s.ref_count) (Moves.drop hc) ht ?_
    ((h.slots t ht i).moved (Moves.drop hc) hfd ?_ ?_ ?_ nofun ?_) ?_ ?_ ?_ ?_ nofun ?_,
    closes_mono (fun _ => Nat.le_refl _) rfl⟩
  · intro d hd x hx
    obtain rfl := List.mem_singleton.1 hd
    obtain rfl := Option.some_inj.1 hx
    rfl
  · simp [hst, hs0, h0, Call.slot, holds]
  · simp [hst, Call.slot]
  · simp [hst, Call.slot, holds]
  · simp [hn]
  · intro n
    simp [file.names_unused (Or.inr hst), hnames, Call.opened]
  · intro n
    simp [file.names_unused (Or.inr hst), hnames, Call.held]
  · intro u
    simp [Call.dying, Call.swept]
  · intro p
    have := h.busy p
    simp
    omega
  · simp [hst]

theorem Ok.openDone (h : Ok s) {open_flags : Word} {node : Node}
    (hc : .truncate pid t i open_flags node ∈ s.calls) (fstat : Int) (st_size : Word) :
    Ends (Fine s) (fun _ => False)
      (openDone (s.drop (.truncate pid t i open_flags node)) pid t i open_flags node fstat st_size) := by
  obtain ⟨ht, hst, h0⟩ := h.of_opening hc rfl
  have hfile := file_ok (s := s.drop (.truncate pid t i open_flags node)) (i := i) ht
  unfold filetable.openDone
  rw [hfile]
  show Ends _ _ (if flag open_flags O_APPEND = true ∧ fstat ≠ 0 then _ else _)
  rw [ends_ite]
  constructor
  · intro _
    exact h.openFails hc fstat hst rfl h0
  · intro _
    exact h.openEnds hc _ hst rfl rfl h0

theorem Ok.truncated (h : Ok s) {open_flags : Word} {node : Node}
    (hc : .truncate pid t i open_flags node ∈ s.calls) (ret fstat : Int) (st_size : Word) :
    Ends (Fine s) (fun _ => False) (truncated (s.drop (.truncate pid t i open_flags node)) pid t i
      open_flags node ret fstat st_size) := by
  unfold filetable.truncated
  rw [ends_ite]
  constructor
  · intro _
    obtain ⟨ht, hst, h0⟩ := h.of_opening hc rfl
    have hf := h.openFails hc ret (f := s.slot t i) hst rfl h0
    have hself := setFile_self (s.drop (.truncate pid t i open_flags node)) t i
    rwa [show s.slot t i = (s.drop (.truncate pid t i open_flags node)).slot t i from rfl, hself] at hf
  · intro _
    exact h.openDone hc fstat st_size

theorem Ok.failingDone (h : Ok s) {node : Node} {value : Int}
    (hc : .failing pid t i node value ∈ s.calls) :
    Ends (Fine s) (fun _ => False)
      (failingDone (s.drop (.failing pid t i node value)) pid t i node value) := by
  have hpos : 0 < s.ref_count node := by
    have h1 := h.ref_count node
    have h2 : 0 < holding Call.held s.calls node := holding_pos.2 ⟨_, hc, rfl⟩
    omega
  unfold filetable.failingDone
  have hdec := inode_ref_dec_ok (s := s.drop (.failing pid t i node value)) node hpos
  rw [hdec]
  refine ⟨h.opens (d := .failed pid t i value) hc rfl rfl rfl rfl rfl (fun _ => rfl) ?_,
    closes_mono (fun _ => Nat.le_refl _) rfl⟩
  intro n
  exact update_sub_holds s.ref_count node n hpos

end

/-! ## The calls on an open file -/

section

variable {s : Sys} {t : Tab} {i : Fd} {pid : Pid} {old l : List Call} {next : Next}

theorem Ok.fd2file (h : Ok s) (hp : pid ∈ s.procs) (fd : Int) :
    fd2file s pid fd = .ok none ∨
      ∃ t i, s.fs_struct pid = some t ∧ t ∈ s.tabs ∧ (s.slot t i).status = .FD_OPENED ∧
        fd2file s pid fd = .ok (some (t, i)) := by
  unfold filetable.fd2file
  cases testfd fd with
  | none => exact Or.inl rfl
  | some i =>
    obtain ⟨t, hpt, ht, _, hg⟩ := h.get_filemap hp
    show (filetable.get_filemap s pid >>= _) = _ ∨
      ∃ t' i', _ ∧ _ ∧ _ ∧ (filetable.get_filemap s pid >>= _) = _
    rw [hg]
    show (s.file t i >>= _) = _ ∨ ∃ t' i', _ ∧ _ ∧ _ ∧ (s.file t i >>= _) = _
    rw [file_ok ht]
    by_cases hst : (s.slot t i).status = .FD_OPENED ∧ (s.slot t i).fd = fd
    · refine Or.inr ⟨t, i, hpt, ht, hst.1, ?_⟩
      show Except.ok (if _ then _ else _) = _
      rw [if_pos hst]
    · left
      show Except.ok (if _ then _ else _) = _
      rw [if_neg hst]

/-- The file of a process that is in no call can be used, and the use can come back. -/
theorem Ok.goes_ret (h : Ok s) (hr : s.runs pid) (hpt : s.fs_struct pid = some t) (value : Int) :
    Goes s t i (.ret pid value) [] := by
  refine ⟨⟨?_, ?_, nofun, List.nodup_singleton pid⟩, fun _ => rfl, h.busy_start hr rfl⟩
  · intro p hp
    obtain rfl := List.mem_singleton.1 hp
    exact hr.1
  · intro u hu
    obtain rfl := Option.some_inj.1 hu
    exact ⟨pid, List.mem_singleton_self pid, hpt⟩

theorem Ok.filemap_close (h : Ok s) (g : Goes s t i next old) (m : Moves s.calls old [] l)
    (hst : (s.slot t i).status = .FD_OPENED)
    (hold : ∀ c ∈ old, c.slot = none ∧ c.opened = none ∧ c.held = none)
    (hone : ∀ owner, next = .destroy owner → (s.slot t i).open_count = 1) :
    Ends (Fine s) (fun _ => False) (filemap_close { s with calls := l } t i next) := by
  have ht := g.mem h
  have hpos : 0 < (s.slot t i).open_count := by
    have := (h.slots t ht i).open_count
    rw [if_pos hst] at this
    omega
  have hio : holding Call.slot old (.io, t, i) = 0 := by
    apply holding_eq_zero
    intro c hc
    simp [(hold c hc).1]
  have hfile := file_ok (s := { s with calls := l }) (i := i) ht
  unfold filetable.filemap_close
  rw [hfile]
  show Ends _ _ (if (s.slot t i).status ≠ .FD_OPENED ∨ (s.slot t i).open_count = 0 then _ else _)
  rw [if_neg (by simp [hst, Nat.ne_of_gt hpos])]
  refine h.lowered (f := { s.slot t i with
      status := .FD_CLOSED, open_count := (s.slot t i).open_count - 1 }) g m ⟨hpos, Or.inr rfl, rfl, rfl, ?_, ?_, fun c hc => (hold c hc).2.1,
    fun c hc => (hold c hc).2.2⟩ ?_
  · rw [hio, if_pos hst]
    simp
    omega
  · intro c hc x hx
    rw [(hold c hc).1] at hx
    cases hx
  · intro owner ho
    show (s.slot t i).open_count - 1 = 0
    rw [hone owner ho]

theorem Ok.file_close (h : Ok s) (hr : s.runs pid) (fd : Int) :
    Ends (Fine s) (fun _ => False) (file_close s pid fd) := by
  unfold filetable.file_close
  rcases h.fd2file hr.1 fd with hf | ⟨t, i, hpt, ht, hst, hf⟩
  · rw [hf]
    exact h.ret pid _
  · rw [hf]
    exact h.filemap_close (h.goes_ret hr hpt 0) (Moves.refl _) hst nofun nofun

theorem Ok.file_io (h : Ok s) (hr : s.runs pid) (fd : Int) (op : Op) :
    Ends (Fine s) (fun _ => False) (file_io s pid fd op) := by
  unfold filetable.file_io
  rcases h.fd2file hr.1 fd with hf | ⟨t, i, hpt, ht, hst, hf⟩
  · rw [hf]
    exact h.ret pid _
  · rw [hf]
    show Ends _ _ (s.file t i >>= _)
    rw [file_ok ht]
    show Ends _ _ (if op.permitted (s.slot t i) = true then _ else _)
    rw [ends_ite]
    refine ⟨fun _ => ?_, fun _ => h.ret pid _⟩
    show Ends _ _ (filemap_acquire s t i >>= _)
    unfold filemap_acquire
    rw [file_ok ht]
    show Ends _ _ ((if (s.slot t i).status ≠ .FD_OPENED then _ else _) >>= _)
    rw [if_neg (not_not.2 hst)]
    have hs := h.slots t ht i
    have hpos : 0 < (s.slot t i).open_count := by
      have := hs.open_count
      rw [if_pos hst] at this
      omega
    have hnames : file.names { s.slot t i with open_count := (s.slot t i).open_count + 1 } =
        (s.slot t i).names := by
      simp [file.names, hst]
    refine ⟨h.setFile (o := s.open_count) (r := s.ref_count)
      ((Moves.refl _).push (Call.io pid t i op)) ht ?_ (hs.moved ((Moves.refl _).push _) rfl ?_ ?_ ?_ ?_ ?_)
      ?_ ?_ ?_ (h.busy_start hr rfl) ?_ ?_, closes_mono (fun _ => Nat.le_refl _) rfl⟩
    · intro c hc x hx
      obtain rfl := List.mem_singleton.1 hc
      obtain rfl := Option.some_inj.1 hx
      rfl
    · simp [hst, Call.slot]
    · simp [hst, Call.slot, holds]
    · simp [hst, Call.slot, holds]
    · simp [hst]
    · exact hs.node
    · intro n
      simp [hnames, Call.opened]
    · intro n
      simp [hnames, Call.held]
    · intro u
      simp [Call.dying, Call.swept]
    · intro c hc
      obtain rfl := List.mem_singleton.1 hc
      have g := h.goes_ret (i := i) hr hpt 0
      exact Call.Inside.setFile ⟨g.inside.procs, g.inside.own, nofun, g.inside.nodup⟩ nofun
    · simp [hst]

/-- A call changes nothing but the position of its file. -/
theorem Op.finish_same (op : Op) (f : file) (answer : Answer) :
    ∃ pos, (op.finish f answer).1 = { f with pos } := by
  have htry : ∀ pos, ∃ p, (tryseek f pos answer).1 = { f with pos := p } := by
    intro pos
    unfold tryseek
    split
    · exact ⟨pos, rfl⟩
    · exact ⟨f.pos, rfl⟩
  cases op with
  | file_fstat | file_fsync | file_getdirentry => exact ⟨f.pos, rfl⟩
  | file_read | file_write =>
    unfold Op.finish
    dsimp only
    split
    · exact ⟨_, rfl⟩
    · exact ⟨f.pos, rfl⟩
  | file_seek pos whence =>
    unfold Op.finish
    dsimp only
    split
    · exact htry _
    · split
      · exact htry _
      · split
        · split
          · exact htry _
          · exact ⟨f.pos, rfl⟩
        · exact ⟨f.pos, rfl⟩

theorem Ok.ioDone (h : Ok s) {op : Op} (hc : .io pid t i op ∈ s.calls) (answer : Answer) :
    Ends (Fine s) (fun _ => False) (ioDone (s.drop (.io pid t i op)) pid t i op answer) := by
  obtain ⟨ht, hpos⟩ := h.of_io hc rfl
  obtain ⟨pos, hf⟩ := op.finish_same (s.slot t i) answer
  have hs := h.slots t ht i
  have hst := hs.status hpos
  have hin := h.inside _ hc
  have hfile := file_ok (s := s.drop (.io pid t i op)) (i := i) ht
  unfold filetable.ioDone
  rw [hfile]
  show Ends _ _ (filemap_release ((s.drop (.io pid t i op)).setFile t i (op.finish (s.slot t i) answer).1)
    t i (.ret pid (op.finish (s.slot t i) answer).2))
  rw [hf]
  have hfile := setFile_file (s := s.drop (.io pid t i op)) (i := i) { s.slot t i with pos } ht
  unfold filemap_release
  rw [hfile]
  show Ends _ _ (if ¬ ((s.slot t i).status = .FD_OPENED ∨ (s.slot t i).status = .FD_CLOSED) ∨
    (s.slot t i).open_count = 0 then _ else _)
  rw [if_neg (by simp [hst, Nat.ne_of_gt hpos])]
  dsimp only
  rw [setFile_setFile]
  have g : Goes s t i (.ret pid (op.finish (s.slot t i) answer).2) [.io pid t i op] := by
    refine ⟨⟨hin.procs, hin.own, nofun, hin.nodup⟩, ?_, h.busy_same rfl⟩
    intro u
    simp [Call.dying, Call.swept, Next.swept]
  refine h.lowered (f := { s.slot t i with pos, open_count := (s.slot t i).open_count - 1 }) g
    (Moves.drop hc) ⟨hpos, hst, rfl, rfl, ?_, ?_, ?_, ?_⟩ nofun
  · simp [Call.slot]
    omega
  · intro c hc x hx
    obtain rfl := List.mem_singleton.1 hc
    exact (Option.some_inj.1 hx).symm
  · intro c hc
    obtain rfl := List.mem_singleton.1 hc
    rfl
  · intro c hc
    obtain rfl := List.mem_singleton.1 hc
    rfl

theorem Ok.closingDone (h : Ok s) {node : Node} (hc : .closing t i node next ∈ s.calls) :
    Ends (Fine s) (fun _ => False) (closingDone (s.drop (.closing t i node next)) t i node next) := by
  have hpos : 0 < s.ref_count node := by
    have h1 := h.ref_count node
    have h2 : 0 < holding Call.held s.calls node := holding_pos.2 ⟨_, hc, rfl⟩
    omega
  unfold filetable.closingDone
  have hdec := inode_ref_dec_ok (s := s.drop (.closing t i node next)) node hpos
  rw [hdec]
  have hsame : SameUse (.closing t i node next) (.closed t i next) t i := by
    refine ⟨rfl, rfl, rfl, rfl, fun x hx => ?_⟩
    rw [← Option.some_inj.1 hx]
  refine ⟨h.goesOn hc hsame (h.slot_mem hc rfl) (fun _ => rfl) ?_,
    closes_mono (fun _ => Nat.le_refl _) rfl⟩
  intro n
  exact update_sub_holds s.ref_count node n hpos

theorem Ok.closedDone (h : Ok s) (hc : .closed t i next ∈ s.calls) :
    Ends (Fine s) (fun _ => False) (closedDone (s.drop (.closed t i next)) t i next) := by
  obtain ⟨ht, hst, h0⟩ := h.of_closing hc rfl
  have hs := h.slots t ht i
  have hin := h.inside _ hc
  have hfile := file_ok (s := s.drop (.closed t i next)) (i := i) ht
  have hn : (s.slot t i).names = none := file.names_none (by simp [hst]) (Or.inr h0)
  have hn' : file.names { s.slot t i with status := .FD_NONE } = none := file.names_unused (Or.inl rfl)
  obtain ⟨q, hq⟩ := goNext_ok (t := t) (i := i)
    (s := (s.drop (.closed t i next)).setFile t i { s.slot t i with status := .FD_NONE }) next
    fun owner _ => ⟨ht, by rw [setFile_slot_self]⟩
  unfold filetable.closedDone
  rw [hfile]
  show Ends _ _ (goNext ((s.drop (.closed t i next)).setFile t i { s.slot t i with status := .FD_NONE })
    t i next)
  rw [hq]
  have hz : ∀ k, holding Call.slot (next.calls t i) k = 0 :=
    Next.holding_calls (fun _ _ _ => rfl) (fun _ _ _ => rfl) t i next
  refine ⟨h.setFile (o := s.open_count) (r := s.ref_count) (f := { s.slot t i with status := .FD_NONE })
    ((Moves.drop hc).append (next.calls t i)) ht ?_ (hs.moved ((Moves.drop hc).append _) rfl ?_ ?_ ?_ ?_ ?_)
    ?_ ?_ (Next.calls_dying t i next) ?_ ?_ ?_, closes_mono (fun _ => Nat.le_refl _) rfl⟩
  · intro d hd x hx
    rcases List.mem_append.1 hd with hd | hd
    · obtain rfl := List.mem_singleton.1 hd
      rw [← Option.some_inj.1 hx]
    · exact absurd hx (Next.calls_at hd)
  · simp [hst, hz, Call.slot, holds]
  · simp [hst, hz, Call.slot, holds]
  · simp [hst, h0, hz, Call.slot]
  · exact fun _ => h0
  · simp
  · intro n
    have hz : holding Call.opened (next.calls t i) n = 0 :=
      Next.holding_calls (fun _ _ _ => rfl) (fun _ _ _ => rfl) t i next n
    simp [hn, hn', hz, Call.opened]
  · intro n
    have hz : holding Call.held (next.calls t i) n = 0 :=
      Next.holding_calls (fun _ _ _ => rfl) (fun _ _ _ => rfl) t i next n
    simp [hn, hn', hz, Call.held]
  · intro p
    have h1 := h.busy p
    have h2 := Next.calls_busy t i next p
    omega
  · refine Next.calls_inside (hin.setFile fun _ _ => rfl) fun owner _ => ?_
    rw [setFile_slot_self]
  · exact fun _ => Or.inl rfl

/-! ## Copies -/

/-- A free file becomes a copy of an opened one. -/
theorem Ok.filemap_dup {u : Tab} {j : Fd} (h : Ok s) (ht : t ∈ s.tabs) (hu : u ∈ s.tabs)
    (hd : holding Call.dying s.calls t = 0) (hst : (s.slot t i).status = .FD_NONE)
    (hsu : (s.slot u j).status = .FD_OPENED) {f : file} (hf : f.status = .FD_INIT)
    (hfd : f.fd = (s.slot t i).fd) (h0 : f.open_count = 0) :
    ∃ node g, (g.status = .FD_OPENED ∧ g.fd = (s.slot t i).fd ∧ 0 < s.open_count node) ∧
      filemap_dup (s.setFile t i f) t i u j =
        .ok ((inode_open_inc (inode_ref_inc s node) node).setFile t i g) ∧
      Ok ((inode_open_inc (inode_ref_inc s node) node).setFile t i g) := by
  have hs := h.slots t ht i
  have hs0 := hs.unused (Or.inl hst)
  have hcu := (h.slots u hu j).open_count
  rw [if_pos hsu] at hcu
  obtain ⟨node, hnode, hnames, hpos, -⟩ := h.named_of_pos hu (i := j) (by omega)
  have hne : (u, j) ≠ (t, i) := by
    intro he
    obtain ⟨rfl, rfl⟩ := Prod.mk.inj he
    rw [hst] at hsu
    cases hsu
  refine ⟨node, { f with
    status := .FD_OPENED, readable := (s.slot u j).readable, writable := (s.slot u j).writable
    pos := (s.slot u j).pos, node := some node, open_count := 1 }, ⟨rfl, hfd, hpos⟩, ?_, ?_⟩
  · unfold filetable.filemap_dup
    rw [setFile_file f ht, file_ok (s := s.setFile t i f) (i := j) hu, setFile_slot_ne s f hne]
    show (if f.status ≠ .FD_INIT ∨ (s.slot u j).status ≠ .FD_OPENED then _ else _) = _
    rw [if_neg (by simp [hf, hsu])]
    simp only [hnode]
    have hopen := filemap_open_ok (t := t) (i := i)
      (s := inode_open_inc (inode_ref_inc (s.setFile t i f) node) node)
      (f := { f with
        pos := (s.slot u j).pos, readable := (s.slot u j).readable, writable := (s.slot u j).writable
        node := some node }) ht hf (Option.some_ne_none node)
    refine Eq.trans hopen ?_
    show Except.ok (((inode_open_inc (inode_ref_inc s node) node).setFile t i f).setFile t i _) = _
    rw [setFile_setFile, h0]
  · refine h.setFile (o := update s.open_count node (s.open_count node + 1))
      (r := update s.ref_count node (s.ref_count node + 1)) (Moves.refl s.calls) ht nofun
      (hs.moved (Moves.refl _) hfd ?_ ?_ ?_ nofun ?_) ?_ ?_ (fun _ => rfl) ?_ nofun fun _ => Or.inr hd
    · simp [hst, hs0]
    · simp [hst]
    · simp [hst]
    · simp
    · intro n
      have := update_add_holds s.open_count node n
      rw [file.names_unused (Or.inl hst)]
      simpa [file.names] using this
    · intro n
      have := update_add_holds s.ref_count node n
      rw [file.names_unused (Or.inl hst)]
      simpa [file.names] using this
    · intro p
      have := h.busy p
      simp
      omega

end

/-! ## Fork -/

section

variable {s s' : Sys} {t u : Tab} {i : Fd} {pid child : Pid} {old new : List Call}

theorem Ok.file_dup (h : Ok s) (hr : s.runs pid) (fd1 fd2 : Int) :
    Ends (Fine s) (fun _ => False) (file_dup s pid fd1 fd2) := by
  unfold filetable.file_dup
  rcases h.fd2file hr.1 fd1 with hf | ⟨u, j, hpu, hu, hsu, hf⟩
  · rw [hf]
    exact h.ret pid _
  · rw [hf]
    show Ends _ _ (filetable.filemap_alloc s pid fd2 >>= _)
    rcases h.filemap_alloc hr.1 fd2 with ⟨ret, ha⟩ | ⟨t, i, hpt, ht, hcount, hst, h0, ha⟩
    · rw [ha]
      exact h.ret pid ret
    · rw [ha]
      obtain ⟨node, g, hg, hdup, hok⟩ := h.filemap_dup ht hu (h.not_dying hcount) hst hsu
        (f := { s.slot t i with status := .FD_INIT, node := none }) rfl rfl h0
      show Ends _ _ (filetable.filemap_dup _ t i u j >>= _)
      rw [hdup]
      have hfile := setFile_file (s := inode_open_inc (inode_ref_inc s node) node) (i := i) g ht
      show Ends _ _ (((inode_open_inc (inode_ref_inc s node) node).setFile t i g).file t i >>= _)
      rw [hfile]
      refine ⟨(hok.ret pid g.fd).1, closes_mono (fun n => ?_) rfl⟩
      exact Nat.le_of_add_right_le (Nat.le_of_eq (update_add_holds s.open_count node n).symm)

/-- Files come to the tables, and nothing else changes that the loop of `dup_fs` uses. -/
structure Grows (s s' : Sys) : Prop where
  tabs : s'.tabs = s.tabs
  procs : s'.procs = s.procs
  fs_struct : s'.fs_struct = s.fs_struct
  calls : s'.calls = s.calls
  fs_count : ∀ u, (s'.table u).fs_count = (s.table u).fs_count
  open_count : ∀ node, s.open_count node ≤ s'.open_count node
  vop_closes : s'.vop_closes = s.vop_closes

theorem Grows.trans {s'' : Sys} (h : Grows s s') (h' : Grows s' s'') : Grows s s'' where
  tabs := h'.tabs.trans h.tabs
  procs := h'.procs.trans h.procs
  fs_struct := h'.fs_struct.trans h.fs_struct
  calls := h'.calls.trans h.calls
  fs_count u := (h'.fs_count u).trans (h.fs_count u)
  open_count node := Nat.le_trans (h.open_count node) (h'.open_count node)
  vop_closes := h'.vop_closes.trans h.vop_closes

theorem dupLoop_cons (is : List Fd) (ht : t ∈ s.tabs) (hu : u ∈ s.tabs) :
    dupLoop t u (i :: is) s =
      if (s.slot u i).status = .FD_OPENED then
        filemap_dup (s.setFile t i { s.slot t i with status := .FD_INIT }) t i u i >>= dupLoop t u is
      else dupLoop t u is s := by
  rw [dupLoop, file_ok hu, file_ok ht]
  by_cases hsu : (s.slot u i).status = .FD_OPENED
  · rw [if_pos hsu]
    exact if_pos hsu
  · rw [if_neg hsu]
    exact if_neg hsu

theorem Ok.dupLoop (is : List Fd) (h : Ok s) (ht : t ∈ s.tabs) (hu : u ∈ s.tabs)
    (hd : holding Call.dying s.calls t = 0) (hnd : is.Nodup)
    (hst : ∀ i ∈ is, (s.slot t i).status = .FD_NONE) :
    ∃ s', dupLoop t u is s = .ok s' ∧ Ok s' ∧ Grows s s' := by
  induction is generalizing s with
  | nil => exact ⟨s, rfl, h, rfl, rfl, rfl, rfl, fun _ => rfl, fun _ => Nat.le_refl _, rfl⟩
  | cons i is ih =>
    obtain ⟨hi, hnd⟩ := List.nodup_cons.1 hnd
    have hsi := hst i (List.mem_cons_self)
    rw [dupLoop_cons is ht hu]
    by_cases hsu : (s.slot u i).status = .FD_OPENED
    · obtain ⟨node, g, hg, hdup, hok⟩ := h.filemap_dup ht hu hd hsi hsu
        (f := { s.slot t i with status := .FD_INIT }) rfl rfl ((h.slots t ht i).unused (Or.inl hsi))
      rw [if_pos hsu, hdup]
      have e : Edit s ((inode_open_inc (inode_ref_inc s node) node).setFile t i g) t i [] [] :=
        edit_setFile (o := update s.open_count node (s.open_count node + 1))
          (r := update s.ref_count node (s.ref_count node + 1)) (v := s.vop_closes) (q := s.result)
          (Moves.refl s.calls)
      have hgrows : Grows s ((inode_open_inc (inode_ref_inc s node) node).setFile t i g) := by
        refine ⟨rfl, rfl, rfl, rfl, e.fs_count, fun n => ?_, rfl⟩
        exact Nat.le_of_add_right_le (Nat.le_of_eq (update_add_holds s.open_count node n).symm)
      obtain ⟨s', hs', hok', hgrows'⟩ := ih hok ht hu hd hnd fun j hj => by
        rw [e.slot t j fun he => hi ((Prod.mk.inj he).2 ▸ hj)]
        exact hst j (List.mem_cons_of_mem i hj)
      exact ⟨s', hs', hok', hgrows.trans hgrows'⟩
    · rw [if_neg hsu]
      exact ih h ht hu hd hnd fun j hj => hst j (List.mem_cons_of_mem i hj)

/-- What a step that leaves the files alone must respect, where processes and tables come together or
part. -/
theorem Ok.link (h : Ok s) (htabs : s'.tabs = s.tabs) (hslot : ∀ u j, s'.slot u j = s.slot u j)
    (m : Moves s.calls old new s'.calls)
    (hnone : ∀ c ∈ old ++ new, c.slot = none ∧ c.opened = none ∧ c.held = none)
    (hopen : s'.open_count = s.open_count)
    (href : ∀ node, s'.ref_count node + s.others node + refs s.tabs s.pwd node =
      s.ref_count node + s'.others node + refs s.tabs s'.pwd node)
    (hprocs : ∀ pid ∈ s'.procs, ∃ t ∈ s.tabs, s'.fs_struct pid = some t)
    (hcount : ∀ t ∈ s.tabs, (s'.table t).fs_count = refs s'.procs s'.fs_struct t)
    (hin : ∀ c ∈ s'.calls, c.Inside s') (hdying : ∀ t, holding Call.dying s'.calls t ≤ 1)
    (hbusy : ∀ pid, busyCount s'.calls pid ≤ 1) : Ok s' := by
  have hzero : ∀ {π : Type} [DecidableEq π] (f : Call → Option π) (l : List Call) (x : π),
      (∀ c ∈ l, f c = none) → holding f l x = 0 := by
    intro π _ f l x hl
    apply holding_eq_zero
    intro c hc
    simp [hl c hc]
  have hsame : ∀ {π : Type} [DecidableEq π] (f : Call → Option π), (∀ c ∈ old ++ new, f c = none) →
      ∀ x, holding f s'.calls x = holding f s.calls x := by
    intro π _ f hf x
    have hm := m.holding f x
    rwa [hzero f old x fun c hc => hf c (List.mem_append_left _ hc),
      hzero f new x fun c hc => hf c (List.mem_append_right _ hc)] at hm
  have hk := hsame Call.slot fun c hc => (hnone c hc).1
  have hnamed : ∀ node, s'.named node = s.named node := by
    intro node
    unfold Sys.named
    rw [htabs]
    apply refs_congr
    intro x _
    rw [hslot]
  refine ⟨?_, ?_, ?_, ?_, ?_, hin, hdying, hbusy⟩
  · intro u hu j
    rw [htabs] at hu
    have hs := h.slots u hu j
    rw [hslot]
    exact ⟨hs.fd, by rw [hk]; exact hs.open_count, by rw [hk]; exact hs.opening,
      by rw [hk]; exact hs.closing, hs.unused, hs.node⟩
  · intro node
    unfold Sys.opening
    rw [hopen, hnamed, hsame Call.opened fun c hc => (hnone c hc).2.1]
    exact h.open_count node
  · intro node
    have h1 := h.ref_count node
    have h2 := href node
    rw [hnamed, hsame Call.held fun c hc => (hnone c hc).2.2, htabs]
    omega
  · rw [htabs]
    exact hprocs
  · rw [htabs]
    exact hcount

/-- No call is about a table that is not there. -/
theorem Ok.no_slot (h : Ok s) (ht : t ∉ s.tabs) (k : Use) (i : Fd) :
    holding Call.slot s.calls (k, t, i) = 0 :=
  holding_eq_zero fun _ hc hx => ht (h.slot_mem hc hx)

theorem Ok.no_dying (h : Ok s) (ht : t ∉ s.tabs) : holding Call.dying s.calls t = 0 := by
  apply holding_eq_zero
  intro c hc hd
  obtain ⟨k, hk⟩ := Call.swept_of_dying hd
  exact ht ((h.inside c hc).swept t k hk).1

theorem setTable_slot (s : Sys) {g : fs_struct} (hg : g.filemap = (s.table t).filemap) (u : Tab) (j : Fd) :
    (s.setTable t g).slot u j = s.slot u j := by
  unfold Sys.setTable Sys.slot
  by_cases hu : u = t
  · rw [hu]
    simp [hg]
  · simp [hu]

theorem setTable_pwd (s : Sys) {g : fs_struct} (hg : g.pwd = (s.table t).pwd) (u : Tab) :
    ((s.setTable t g).table u).pwd = (s.table u).pwd := by
  unfold Sys.setTable
  by_cases hu : u = t
  · rw [hu]
    simp [hg]
  · simp [hu]

theorem setTable_ne (s : Sys) (g : fs_struct) (hu : u ≠ t) : (s.setTable t g).table u = s.table u :=
  update_of_ne hu _ _

/-- The new table of `copy_fs` before its files are copied. -/
theorem Ok.newTable (h : Ok s) (ht : t ∉ s.tabs) (pwd : Option Node) {r : Node → Nat}
    (hr : ∀ node, r node = s.ref_count node + holds pwd node) :
    Ok { s with
      tabs := insert t s.tabs, table := update s.table t { fs_create with pwd }, ref_count := r } := by
  have hne : ∀ u ∈ s.tabs, u ≠ t := fun u hu he => ht (he ▸ hu)
  have hslot : ∀ u ∈ s.tabs, ∀ j, (update s.table t { fs_create with pwd } u).filemap j = s.slot u j := by
    intro u hu j
    rw [update_of_ne (hne u hu)]
    rfl
  have hfresh : ∀ j, (update s.table t { fs_create with pwd } t).filemap j = filemap_init j := by
    intro j
    rw [update_self]
    rfl
  have hnamed : ∀ node, refs (insert t s.tabs ×ˢ Finset.univ)
      (fun x => ((update s.table t { fs_create with pwd } x.1).filemap x.2).names) node =
        s.named node := by
    intro node
    unfold Sys.named
    rw [refs_mono (Finset.product_subset_product_left (Finset.subset_insert t s.tabs))]
    · apply refs_congr
      intro x hx
      rw [hslot x.1 (Finset.mem_product.1 hx).1]
    · intro x hx hn
      have hxt : x.1 = t := by
        refine (Finset.mem_insert.1 (Finset.mem_product.1 hx).1).resolve_right fun hm => hn ?_
        exact Finset.mem_product.2 ⟨hm, Finset.mem_univ _⟩
      rw [hxt, hfresh]
      rfl
  have hpwd : ∀ node, refs s.tabs (fun u => if holding Call.dying s.calls u = 0
      then (update s.table t { fs_create with pwd } u).pwd else none) node = refs s.tabs s.pwd node := by
    intro node
    apply refs_congr
    intro u hu
    rw [update_of_ne (hne u hu)]
    rfl
  refine ⟨?_, ?_, ?_, ?_, ?_, ?_, h.dying, h.busy⟩
  · intro u hu j
    show SlotOk s.calls u j ((update s.table t { fs_create with pwd } u).filemap j)
    rcases Finset.mem_insert.1 hu with rfl | hu
    · rw [hfresh]
      have hk := fun k => h.no_slot ht k j
      exact ⟨rfl, by simp [hk, filemap_init], by simp [hk, filemap_init], by simp [hk, filemap_init],
        fun _ => rfl, by simp [filemap_init]⟩
    · rw [hslot u hu j]
      exact h.slots u hu j
  · intro node
    show s.open_count node = refs (insert t s.tabs ×ˢ Finset.univ)
      (fun x => ((update s.table t { fs_create with pwd } x.1).filemap x.2).names) node + s.opening node
    rw [hnamed]
    exact h.open_count node
  · intro node
    show r node = refs (insert t s.tabs ×ˢ Finset.univ)
        (fun x => ((update s.table t { fs_create with pwd } x.1).filemap x.2).names) node +
      holding Call.held s.calls node + refs (insert t s.tabs) (fun u => if holding Call.dying s.calls u = 0
        then (update s.table t { fs_create with pwd } u).pwd else none) node + s.others node
    have h1 := h.ref_count node
    rw [hnamed, refs_insert ht, if_pos (h.no_dying ht), update_self, hr, hpwd]
    show _ = _ + _ + (_ + holds pwd node) + _
    omega
  · intro pid hp
    obtain ⟨u, hu, hpu⟩ := h.procs pid hp
    exact ⟨u, Finset.mem_insert_of_mem hu, hpu⟩
  · intro u hu
    show (update s.table t { fs_create with pwd } u).fs_count = _
    rcases Finset.mem_insert.1 hu with rfl | hu
    · rw [update_self]
      refine (refs_eq_zero.2 fun p hp hpu => ?_).symm
      exact ht (h.of_proc hp hpu).1
    · rw [update_of_ne (hne u hu)]
      exact h.fs_count u hu
  · intro c hc
    have hin := h.inside c hc
    refine ⟨hin.procs, hin.own, fun u k hx => ?_, hin.nodup⟩
    obtain ⟨hu, h0, hj⟩ := hin.swept u k hx
    refine ⟨Finset.mem_insert_of_mem hu, ?_, fun j hlt => ?_⟩
    · show (update s.table t _ u).fs_count = 0
      rw [update_of_ne (hne u hu)]
      exact h0
    · show ((update s.table t { fs_create with pwd } u).filemap j).status = _
      rw [hslot u hu j]
      exact hj j hlt

theorem Ok.goodFs (h : Ok s) (hr : s.runs pid) (hchild : child ∉ s.procs) (ht : t ∈ s.tabs)
    (hd : holding Call.dying s.calls t = 0) :
    ∃ s', filetable.goodFs s pid child t = .ok s' ∧ Ok s' ∧ s'.open_count = s.open_count ∧
      s'.vop_closes = s.vop_closes := by
  have hne : ∀ p ∈ s.procs, p ≠ child := fun p hp he => hchild (he ▸ hp)
  have hother : ∀ p ∈ s.procs, update s.fs_struct child (some t) p = s.fs_struct p :=
    fun p hp => update_of_ne (hne p hp) _ _
  have hfs : ∀ u, (update s.table t { s.table t with fs_count := (s.table t).fs_count + 1 } u).fs_count =
      (s.table u).fs_count + holds (some t) u := by
    intro u
    by_cases hu : u = t
    · rw [hu]
      simp
    · rw [update_of_ne hu, holds_ne (Ne.symm hu)]
      rfl
  have hslot := setTable_slot s (t := t)
    (g := { s.table t with fs_count := (s.table t).fs_count + 1 }) rfl
  have hpwd := setTable_pwd s (t := t)
    (g := { s.table t with fs_count := (s.table t).fs_count + 1 }) rfl
  have hidle : ∀ c ∈ s.calls, child ∉ c.pids := fun c hc hp => hchild ((h.inside c hc).procs child hp)
  have m : Moves s.calls [] [.forking pid child] (.forking pid child :: s.calls) := (Moves.refl _).push _
  have hdying : ∀ u, holding Call.dying (.forking pid child :: s.calls) u =
      holding Call.dying s.calls u := by
    intro u
    have hm := m.holding Call.dying u
    simpa [Call.dying, Call.swept] using hm
  have hgood : filetable.goodFs s pid child t = .ok { s.setTable t { s.table t with
        fs_count := (s.table t).fs_count + 1 } with
      procs := insert child s.procs
      fs_struct := update s.fs_struct child (some t)
      calls := .forking pid child :: s.calls } := by
    unfold filetable.goodFs
    rw [fs_ok ht]
    rfl
  refine ⟨_, hgood, ?_, rfl, rfl⟩
  refine h.link rfl hslot m ?_ rfl ?_ ?_ ?_ ?_ ?_ ?_
  · intro c hc
    obtain rfl := List.mem_singleton.1 hc
    exact ⟨rfl, rfl, rfl⟩
  · intro node
    congr 1
    apply refs_congr
    intro u _
    unfold Sys.pwd
    show _ = if holding Call.dying (.forking pid child :: s.calls) u = 0 then _ else _
    rw [hdying]
    congr 1
    exact (hpwd u).symm
  · intro p hp
    show ∃ u ∈ s.tabs, update s.fs_struct child (some t) p = some u
    rcases Finset.mem_insert.1 hp with rfl | hp
    · exact ⟨t, ht, update_self _ _ _⟩
    · rw [hother p hp]
      exact h.procs p hp
  · intro u hu
    show (update s.table t _ u).fs_count =
      refs (insert child s.procs) (update s.fs_struct child (some t)) u
    rw [hfs, refs_insert hchild, update_self, refs_congr hother, h.fs_count u hu]
  · intro c hc
    rcases List.mem_cons.1 hc with rfl | hc
    · refine ⟨fun p hp => ?_, nofun, nofun, by simp [Call.pids, hne pid hr.1]⟩
      rcases List.mem_cons.1 hp with rfl | hp
      · exact Finset.mem_insert_of_mem hr.1
      · obtain rfl := List.mem_singleton.1 hp
        exact Finset.mem_insert_self p _
    · have hin := h.inside c hc
      refine ⟨fun p hp => Finset.mem_insert_of_mem (hin.procs p hp), fun u hu => ?_, fun u k hx => ?_,
        hin.nodup⟩
      · obtain ⟨p, hp, hpu⟩ := hin.own u hu
        exact ⟨p, hp, (hother p (hin.procs p hp)).trans hpu⟩
      · obtain ⟨hu, h0, hj⟩ := hin.swept u k hx
        have hut : u ≠ t := by
          rintro rfl
          exact Nat.ne_of_gt (holding_pos.2 ⟨c, hc, Call.dying_of_swept hx⟩) hd
        refine ⟨hu, ?_, fun j hlt => ?_⟩
        · show (update s.table t _ u).fs_count = 0
          rw [hfs, h0, holds_ne (Ne.symm hut)]
        · show ((s.setTable t _).slot u j).status = _
          rw [hslot]
          exact hj j hlt
  · intro u
    show holding Call.dying (.forking pid child :: s.calls) u ≤ 1
    rw [hdying]
    exact h.dying u
  · intro p
    have hm := moves_busyCount m p
    have h1 := h.busy p
    rw [busyCount_nil, busyCount_singleton] at hm
    show busyCount (.forking pid child :: s.calls) p ≤ 1
    by_cases hp : p ∈ (Call.forking pid child).pids
    · have h0 : busyCount s.calls p = 0 := by
        rcases List.mem_cons.1 hp with rfl | hp
        · exact hr.busyCount
        · obtain rfl := List.mem_singleton.1 hp
          exact List.countP_eq_zero.2 fun c hc => by simpa using hidle c hc
      rw [if_pos hp] at hm
      omega
    · rw [if_neg hp] at hm
      omega

/-- The references once a table has the working directory too. -/
def withPwd (ref_count : Node → Nat) : Option Node → Node → Nat
  | some node => update ref_count node (ref_count node + 1)
  | none => ref_count

/-- `dup_fs` to a new table, up to its loop. -/
theorem dup_fs_new (s : Sys) (ht : t ∉ s.tabs) (hu : u ∈ s.tabs) (hcount : (s.table u).fs_count ≠ 0) :
    dup_fs ({ s with tabs := insert t s.tabs }.setTable t fs_create) t u =
      dupLoop t u (List.finRange FS_STRUCT_NENTRY) { s with
        tabs := insert t s.tabs
        table := update s.table t { fs_create with pwd := (s.table u).pwd }
        ref_count := withPwd s.ref_count (s.table u).pwd } := by
  have hne : u ≠ t := fun he => ht (he ▸ hu)
  have ht' := fs_ok (s := { s with tabs := insert t s.tabs }.setTable t fs_create) (t := t)
    (Finset.mem_insert_self t s.tabs)
  have hu' := fs_ok (s := { s with tabs := insert t s.tabs }.setTable t fs_create) (t := u)
    (Finset.mem_insert_of_mem hu)
  unfold dup_fs
  rw [ht', hu', setTable_ne _ _ hne]
  have hself : (({ s with tabs := insert t s.tabs } : Sys).setTable t fs_create).table t = fs_create :=
    update_self _ _ _
  rw [hself]
  show (if (0 : Nat) ≠ 0 ∨ (s.table u).fs_count = 0 then _ else _) = _
  rw [if_neg (by simp [hcount])]
  cases (s.table u).pwd <;> simp [withPwd, inode_ref_inc, Sys.setTable]

theorem Ok.copy_fs (h : Ok s) (hr : s.runs pid) (hchild : child ∉ s.procs) (clone_fs : Bool)
    {place : Option Tab} (hplace : ∀ t ∈ place, t ∉ s.tabs) :
    Ends (Fine s) (fun _ => False) (copy_fs s pid child clone_fs place) := by
  obtain ⟨u, hu, hpu⟩ := h.procs pid hr.1
  have hucount := (h.of_proc hr.1 hpu).2
  unfold filetable.copy_fs
  rw [hpu]
  cases clone_fs with
  | true =>
    obtain ⟨s', hs', hok, ho, hv⟩ := h.goodFs hr hchild hu (h.not_dying hucount)
    show Ends _ _ (filetable.goodFs s pid child u)
    rw [hs']
    exact ⟨hok, closes_mono (fun n => Nat.le_of_eq (congrFun ho n).symm) hv⟩
  | false =>
    cases place with
    | none => exact h.ret pid _
    | some t =>
      have ht : t ∉ s.tabs := hplace t rfl
      show Ends _ _ (filetable.dup_fs ({ s with tabs := insert t s.tabs }.setTable t fs_create) t u >>= _)
      rw [dup_fs_new s ht hu hucount]
      have hnew := h.newTable ht (s.table u).pwd (r := withPwd s.ref_count (s.table u).pwd) fun node => by
        cases (s.table u).pwd with
        | none => rfl
        | some dir => exact update_add_holds s.ref_count dir node
      obtain ⟨s₁, hs₁, hok₁, hgrows⟩ := hnew.dupLoop (t := t) (u := u) (List.finRange FS_STRUCT_NENTRY)
        (Finset.mem_insert_self t s.tabs) (Finset.mem_insert_of_mem hu) (h.no_dying ht)
        (List.nodup_finRange _) fun i _ => by simp [Sys.slot, fs_create, filemap_init]
      have hr₁ : s₁.runs pid := by
        unfold Sys.runs
        rw [hgrows.procs, hgrows.calls]
        exact hr
      have ht₁ : t ∈ s₁.tabs := by
        rw [hgrows.tabs]
        exact Finset.mem_insert_self t s.tabs
      have hchild₁ : child ∉ s₁.procs := by
        rw [hgrows.procs]
        exact hchild
      have hdying₁ : holding Call.dying s₁.calls t = 0 := by
        rw [hgrows.calls]
        exact h.no_dying ht
      obtain ⟨s', hs', hok, ho, hv⟩ := hok₁.goodFs hr₁ hchild₁ ht₁ hdying₁
      rw [hs₁]
      show Ends _ _ (filetable.goodFs s₁ pid child t)
      rw [hs']
      refine ⟨hok, closes_mono (fun n => ?_) (hv.trans hgrows.vop_closes)⟩
      rw [ho]
      exact hgrows.open_count n

/-- What a process leaves that gives its table back. -/
def Sys.parted (s : Sys) (pid : Pid) (t : Tab) : Sys :=
  { s with procs := s.procs.erase pid }.setTable t
    { s.table t with fs_count := (s.table t).fs_count - 1 }

theorem Ok.parted (h : Ok s) (hr : s.runs pid) (hpt : s.fs_struct pid = some t) :
    Ok (s.parted pid t) := by
  obtain ⟨ht, hcount⟩ := h.of_proc hr.1 hpt
  have hslot := setTable_slot s (t := t) (g := { s.table t with fs_count := (s.table t).fs_count - 1 }) rfl
  have hpwd := setTable_pwd s (t := t) (g := { s.table t with fs_count := (s.table t).fs_count - 1 }) rfl
  refine h.link rfl hslot (Moves.refl _) nofun rfl ?_ ?_ ?_ ?_ h.dying h.busy
  · intro node
    congr 1
    apply refs_congr
    intro u _
    unfold Sys.pwd
    rw [show ((s.parted pid t).table u).pwd = (s.table u).pwd from hpwd u]
    rfl
  · intro p hp
    exact h.procs p (Finset.mem_of_mem_erase hp)
  · intro u hu
    have h1 := refs_split (f := s.fs_struct) hr.1 u
    have h2 := h.fs_count u hu
    rw [hpt] at h1
    show (update s.table t _ u).fs_count = refs (s.procs.erase pid) s.fs_struct u
    by_cases hut : u = t
    · subst hut
      rw [holds_self] at h1
      rw [update_self]
      show (s.table u).fs_count - 1 = _
      omega
    · rw [holds_ne (Ne.symm hut)] at h1
      rw [update_of_ne hut]
      omega
  · intro c hc
    have hin := h.inside c hc
    refine ⟨fun p hp => ?_, hin.own, fun u k hx => ?_, hin.nodup⟩
    · have hne : p ≠ pid := fun he => hr.2 c hc (he ▸ hp)
      exact Finset.mem_erase.2 ⟨hne, hin.procs p hp⟩
    · obtain ⟨hu, h0, hj⟩ := hin.swept u k hx
      have hut : u ≠ t := fun he => hcount (he ▸ h0)
      refine ⟨hu, ?_, fun j hlt => ?_⟩
      · show ((s.setTable t _).table u).fs_count = 0
        rw [setTable_ne s _ hut]
        exact h0
      · show ((s.setTable t _).slot u j).status = _
        rw [hslot]
        exact hj j hlt

/-- A table without processes is given up, with its directory. -/
theorem Ok.fs_destroy (h : Ok s) (ht : t ∈ s.tabs) (h0 : (s.table t).fs_count = 0)
    (hd : holding Call.dying s.calls t = 0) {owner : Option Pid}
    (howner : ∀ p ∈ owner, p ∈ s.procs ∧ busyCount s.calls p = 0) :
    Ends (Fine s) (fun _ => False) (fs_destroy s t owner) := by
  have hend : ∀ r : Node → Nat, (∀ node, r node + holds (s.table t).pwd node = s.ref_count node) →
      Ok { s with ref_count := r, calls := .destroy t 0 owner :: s.calls } := by
    intro r hr
    have m : Moves s.calls [] [.destroy t 0 owner] (.destroy t 0 owner :: s.calls) :=
      (Moves.refl _).push _
    have hdying : ∀ u, holding Call.dying (.destroy t 0 owner :: s.calls) u =
        holding Call.dying s.calls u + holds (some t) u := by
      intro u
      have hm := m.holding Call.dying u
      simpa [Call.dying, Call.swept] using hm
    refine h.link rfl (fun _ _ => rfl) m ?_ rfl ?_ h.procs h.fs_count ?_ ?_ ?_
    · intro c hc
      obtain rfl := List.mem_singleton.1 hc
      exact ⟨rfl, rfl, rfl⟩
    · intro node
      have h1 := hr node
      have h2 := refs_set (f := s.pwd) (g := fun u =>
        if holding Call.dying (.destroy t 0 owner :: s.calls) u = 0 then (s.table u).pwd else none) ht
        (fun u _ hu => by rw [hdying, holds_ne (Ne.symm hu)]; rfl) node
      have h3 : s.pwd t = (s.table t).pwd := if_pos hd
      rw [hdying, holds_self, if_neg (Nat.succ_ne_zero _), h3, holds_none] at h2
      show r node + _ + refs s.tabs s.pwd node = _ + _ + refs s.tabs _ node
      unfold Sys.pwd at h2 ⊢
      dsimp only at h2 ⊢
      omega
    · intro c hc
      rcases List.mem_cons.1 hc with rfl | hc
      · refine ⟨fun p hp => (howner p (Option.mem_toList.1 hp)).1, nofun, fun u k hx => ?_,
          by cases owner <;> simp [Call.pids]⟩
        obtain ⟨rfl, rfl⟩ : t = u ∧ 0 = k := by simpa [Call.swept] using hx
        exact ⟨ht, h0, fun _ hlt => absurd hlt (Nat.not_lt_zero _)⟩
      · have hin := h.inside c hc
        exact ⟨hin.procs, hin.own, hin.swept, hin.nodup⟩
    · intro u
      show holding Call.dying (.destroy t 0 owner :: s.calls) u ≤ 1
      rw [hdying]
      by_cases hu : u = t
      · rw [hu, hd, holds_self]
      · rw [holds_ne (Ne.symm hu)]
        exact h.dying u
    · intro p
      have hm := moves_busyCount m p
      have h1 := h.busy p
      rw [busyCount_nil, busyCount_singleton] at hm
      show busyCount (.destroy t 0 owner :: s.calls) p ≤ 1
      by_cases hp : p ∈ (Call.destroy t 0 owner).pids
      · have h2 := (howner p (Option.mem_toList.1 hp)).2
        rw [if_pos hp] at hm
        omega
      · rw [if_neg hp] at hm
        omega
  unfold filetable.fs_destroy
  rw [fs_ok ht]
  show Ends _ _ (if (s.table t).fs_count ≠ 0 then _ else _)
  rw [if_neg (not_not.2 h0)]
  cases hp : (s.table t).pwd with
  | none =>
    rw [hp] at hend
    refine ⟨hend s.ref_count fun node => rfl, closes_mono (fun _ => Nat.le_refl _) rfl⟩
  | some dir =>
    have hpos : 0 < s.ref_count dir := by
      have h1 := h.ref_count dir
      have h2 : 0 < refs s.tabs s.pwd dir := refs_pos.2 ⟨t, ht, (if_pos hd).trans hp⟩
      omega
    rw [hp] at hend
    show Ends _ _ (inode_ref_dec s dir >>= _)
    rw [inode_ref_dec_ok dir hpos]
    exact ⟨hend _ fun node => update_sub_holds s.ref_count dir node hpos,
      closes_mono (fun _ => Nat.le_refl _) rfl⟩

theorem Ok.putDone (h : Ok s) (owner : Option Pid) : Fine s (putDone s owner) := by
  cases owner with
  | none => exact ⟨h, Closes.refl s⟩
  | some p => exact h.ret p _

theorem Ok.put_fs (h : Ok s) (hr : s.runs pid) (owner : Option Pid)
    (howner : ∀ p ∈ owner, p ∈ s.procs ∧ p ≠ pid ∧ busyCount s.calls p = 0) :
    Ends (Fine s) (fun _ => False) (put_fs s pid owner) := by
  obtain ⟨t, ht, hpt⟩ := h.procs pid hr.1
  have hcount := (h.of_proc hr.1 hpt).2
  have hparted := h.parted hr hpt
  unfold filetable.put_fs
  rw [hpt]
  show Ends _ _ (s.fs t >>= _)
  rw [fs_ok ht]
  show Ends _ _ (if (s.table t).fs_count - 1 = 0 then filetable.fs_destroy (s.parted pid t) t owner else _)
  rw [ends_ite]
  constructor
  · intro h0
    have h0' : ((s.parted pid t).table t).fs_count = 0 := by
      show (update s.table t _ t).fs_count = 0
      rw [update_self]
      exact h0
    refine (hparted.fs_destroy ht h0' (h.not_dying hcount) fun p hp => ?_).mono
      (fun _ hf => ⟨hf.1, hf.2⟩) fun _ hf => hf
    obtain ⟨hp1, hp2, hp3⟩ := howner p hp
    exact ⟨Finset.mem_erase.2 ⟨hp2, hp1⟩, hp3⟩
  · intro _
    have hf := hparted.putDone owner
    exact ⟨hf.1, hf.2⟩

/-- In a table that is being destroyed nothing is in progress but the call that does it. -/
theorem Ok.destroying (h : Ok s) {k : Nat} {owner : Option Pid} (hc : .destroy t k owner ∈ s.calls) (i : Fd) :
    (s.slot t i).status = .FD_NONE ∨ (s.slot t i).status = .FD_OPENED ∧ (s.slot t i).open_count = 1 := by
  obtain ⟨ht, hcount, -⟩ := (h.inside _ hc).swept t k rfl
  have hs := h.slots t ht i
  have hnone : ∀ c ∈ s.calls, ∀ u, c.slot ≠ some (u, t, i) := by
    intro c hm u hx
    rcases Call.tab_or_dying hx with htab | hd
    · exact (h.of_tab hm htab).2 hcount
    · have hne : c ≠ .destroy t k owner := by
        rintro rfl
        cases hx
      have h1 := h.dying t
      have h2 := (Moves.drop hc).holding Call.dying t
      have h3 : 0 < holding Call.dying (s.drop (.destroy t k owner)).calls t :=
        holding_pos.2 ⟨c, List.mem_append_right _ ((List.mem_erase_of_ne hne).2 hm), hd⟩
      simp [Call.dying, Call.swept] at h2
      unfold Sys.drop at h3
      dsimp only at h3
      omega
  have hz : ∀ u, holding Call.slot s.calls (u, t, i) = 0 := fun u => holding_eq_zero fun c hm => hnone c hm u
  have h1 := hs.open_count
  have h2 := hs.opening
  have h3 := hs.closing
  rw [hz] at h1 h2 h3
  cases hst : (s.slot t i).status with
  | FD_NONE => exact Or.inl rfl
  | FD_OPENED =>
    rw [if_pos hst] at h1
    exact Or.inr ⟨rfl, h1⟩
  | FD_INIT => simp [hst] at h2
  | FD_CLOSED =>
    rw [hst] at h1 h3
    simp [h1] at h3

/-- A loop over the files of a table goes on with the next one. -/
theorem Ok.loopOn {next : Next} {c : Call} (h : Ok s) (hc : c ∈ s.calls) (hs : c.slot = none)
    (ho : c.opened = none) (hh : c.held = none) (g : Goes s t i next [c])
    (hst : ∀ owner, next = .destroy owner → (s.slot t i).status = .FD_NONE) :
    Ends (Fine s) (fun _ => False) (goNext (s.drop c) t i next) := by
  have ht := g.mem h
  obtain ⟨q, hq⟩ := goNext_ok (s := s.drop c) (t := t) (i := i) next
    fun owner howner => ⟨ht, hst owner howner⟩
  rw [hq]
  refine ⟨h.same (i := i) (o := s.open_count) (r := s.ref_count) ((Moves.drop hc).append (next.calls t i)) ht
    ?_ ?_ ?_ ?_ ?_ ?_ (Next.calls_inside g.inside hst), closes_mono (fun _ => Nat.le_refl _) rfl⟩
  · intro d hd x hx
    rcases List.mem_append.1 hd with hd | hd
    · rw [List.mem_singleton.1 hd, hs] at hx
      cases hx
    · exact absurd hx (Next.calls_at hd)
  · intro k
    rw [Next.holding_calls (fun _ _ _ => rfl) (fun _ _ _ => rfl)]
    simp [hs]
  · intro node
    rw [Next.holding_calls (fun _ _ _ => rfl) (fun _ _ _ => rfl)]
    simp [ho]
  · intro node
    rw [Next.holding_calls (fun _ _ _ => rfl) (fun _ _ _ => rfl)]
    simp [hh]
  · intro u
    rw [Next.calls_dying, g.dying]
  · intro p
    have h1 := g.busy p
    have h2 := Next.calls_busy t i next p
    omega

/-- A call that is on no file ends. -/
theorem Ok.ended {c : Call} (h : Ok s) (hc : c ∈ s.calls) (hs : c.slot = none) (ho : c.opened = none)
    (hh : c.held = none) (hd : c.dying = none) (ht : t ∈ s.tabs) : Ok (s.drop c) := by
  refine h.same (i := ⟨0, by decide⟩) (o := s.open_count) (r := s.ref_count) (Moves.drop hc) ht ?_ ?_ ?_ ?_ ?_
    ?_ nofun
  · intro d hd x hx
    rw [List.mem_singleton.1 hd, hs] at hx
    cases hx
  · intro k
    simp [hs]
  · intro node
    simp [ho]
  · intro node
    simp [hh]
  · intro u
    simp [hd]
  · intro p
    have := h.busy p
    simp
    omega

theorem Ok.closeallStep (h : Ok s) {k : Nat} (hc : .closeall pid t k ∈ s.calls) :
    Ends (Fine s) (fun _ => False) (closeallStep (s.drop (.closeall pid t k)) pid t k) := by
  have hin := h.inside _ hc
  have ht := (h.of_tab hc rfl).1
  unfold filetable.closeallStep
  by_cases hk : k < FS_STRUCT_NENTRY
  · rw [dif_pos hk]
    have g : Goes s t ⟨k, hk⟩ (.closeall pid) [.closeall pid t k] :=
      ⟨⟨hin.procs, hin.own, nofun, hin.nodup⟩, fun _ => rfl, h.busy_same rfl⟩
    have hfile := file_ok (s := s.drop (.closeall pid t k)) (i := ⟨k, hk⟩) ht
    rw [hfile]
    show Ends _ _ (if (s.slot t ⟨k, hk⟩).status = .FD_OPENED then _ else _)
    rw [ends_ite]
    constructor
    · intro hst
      refine h.filemap_close g (Moves.drop hc) hst ?_ nofun
      intro c hm
      obtain rfl := List.mem_singleton.1 hm
      exact ⟨rfl, rfl, rfl⟩
    · intro _
      exact h.loopOn hc rfl rfl rfl g nofun
  · rw [dif_neg hk]
    exact ⟨h.ended hc rfl rfl rfl rfl ht, Closes.refl s⟩

/-- A table goes whose files are all free. -/
theorem Ok.tableGone (h : Ok s) {k : Nat} {owner : Option Pid} (hc : .destroy t k owner ∈ s.calls)
    (hst : ∀ i, (s.slot t i).status = .FD_NONE) :
    Ok { s.drop (.destroy t k owner) with tabs := s.tabs.erase t } := by
  obtain ⟨ht, hcount, -⟩ := (h.inside _ hc).swept t k rfl
  have m : Moves s.calls [.destroy t k owner] [] (s.drop (.destroy t k owner)).calls := Moves.drop hc
  have hslot : ∀ x, holding Call.slot (s.drop (.destroy t k owner)).calls x = holding Call.slot s.calls x := by
    intro x
    simpa [Call.slot] using m.holding Call.slot x
  have hdying : ∀ u, holding Call.dying (s.drop (.destroy t k owner)).calls u + holds (some t) u =
      holding Call.dying s.calls u := by
    intro u
    simpa [Call.dying, Call.swept] using m.holding Call.dying u
  have ht1 : holding Call.dying s.calls t = 1 := by
    have h1 := hdying t
    have h2 := h.dying t
    rw [holds_self] at h1
    omega
  have hnamed : ∀ node, refs (s.tabs.erase t ×ˢ Finset.univ) (fun x => (s.slot x.1 x.2).names) node =
      s.named node := by
    intro node
    unfold Sys.named
    refine (refs_mono (Finset.product_subset_product_left (Finset.erase_subset t s.tabs)) ?_ node).symm
    intro x hx hn
    have hxt : x.1 = t := by
      by_contra hne
      exact hn (Finset.mem_product.2 ⟨Finset.mem_erase.2 ⟨hne, (Finset.mem_product.1 hx).1⟩,
        Finset.mem_univ _⟩)
    rw [hxt]
    exact file.names_unused (Or.inl (hst x.2))
  refine ⟨?_, ?_, ?_, ?_, ?_, ?_, ?_, ?_⟩
  · intro u hu i
    have hs := h.slots u (Finset.mem_of_mem_erase hu) i
    exact ⟨hs.fd, by rw [hslot]; exact hs.open_count, by rw [hslot]; exact hs.opening,
      by rw [hslot]; exact hs.closing, hs.unused, hs.node⟩
  · intro node
    have h1 := m.holding Call.opened node
    have h2 := h.open_count node
    show s.open_count node = refs (s.tabs.erase t ×ˢ Finset.univ) (fun x => (s.slot x.1 x.2).names) node +
      holding Call.opened (s.drop (.destroy t k owner)).calls node
    unfold Sys.opening at h2
    rw [holding_singleton, holding_nil, show (Call.destroy t k owner).opened = none from rfl,
      holds_none] at h1
    rw [hnamed]
    omega
  · intro node
    have h1 := m.holding Call.held node
    have h2 := h.ref_count node
    have h3 : refs (s.tabs.erase t) (fun u =>
        if holding Call.dying (s.drop (.destroy t k owner)).calls u = 0 then (s.table u).pwd else none)
          node = refs s.tabs s.pwd node := by
      rw [refs_split ht, show s.pwd t = none from if_neg (by omega), holds_none]
      apply refs_congr
      intro u hu
      have h4 := hdying u
      rw [holds_ne (Finset.ne_of_mem_erase hu).symm] at h4
      unfold Sys.pwd
      rw [← h4]
      rfl
    rw [holding_singleton, holding_nil, show (Call.destroy t k owner).held = none from rfl,
      holds_none] at h1
    show s.ref_count node = refs (s.tabs.erase t ×ˢ Finset.univ) (fun x => (s.slot x.1 x.2).names) node +
      holding Call.held (s.drop (.destroy t k owner)).calls node +
      refs (s.tabs.erase t) (fun u =>
        if holding Call.dying (s.drop (.destroy t k owner)).calls u = 0 then (s.table u).pwd else none)
          node + s.others node
    rw [hnamed, h3]
    omega
  · intro p hp
    obtain ⟨u, hu, hpu⟩ := h.procs p hp
    have hne : u ≠ t := fun he => (h.of_proc hp hpu).2 (he ▸ hcount)
    exact ⟨u, Finset.mem_erase.2 ⟨hne, hu⟩, hpu⟩
  · exact fun u hu => h.fs_count u (Finset.mem_of_mem_erase hu)
  · intro c hm
    have hin := h.inside c ((m.mem c hm).resolve_right List.not_mem_nil)
    refine ⟨hin.procs, hin.own, fun u j hx => ?_, hin.nodup⟩
    obtain ⟨hu, hrest⟩ := hin.swept u j hx
    refine ⟨Finset.mem_erase.2 ⟨?_, hu⟩, hrest⟩
    rintro rfl
    have h1 := hdying u
    have h2 : 0 < holding Call.dying (s.drop (.destroy u k owner)).calls u :=
      holding_pos.2 ⟨c, hm, Call.dying_of_swept hx⟩
    rw [holds_self] at h1
    omega
  · intro u
    have h1 := hdying u
    have h2 := h.dying u
    show holding Call.dying (s.drop (.destroy t k owner)).calls u ≤ 1
    omega
  · intro p
    have h1 := moves_busyCount m p
    have h2 := h.busy p
    rw [busyCount_nil] at h1
    show busyCount (s.drop (.destroy t k owner)).calls p ≤ 1
    omega

theorem Ok.destroyStep (h : Ok s) {k : Nat} {owner : Option Pid} (hc : .destroy t k owner ∈ s.calls) :
    Ends (Fine s) (fun _ => False) (destroyStep (s.drop (.destroy t k owner)) t k owner) := by
  have hin := h.inside _ hc
  obtain ⟨ht, hcount, hdone⟩ := hin.swept t k rfl
  unfold filetable.destroyStep
  by_cases hk : k < FS_STRUCT_NENTRY
  · rw [dif_pos hk]
    have g : Goes s t ⟨k, hk⟩ (.destroy owner) [.destroy t k owner] :=
      ⟨⟨hin.procs, nofun, hin.swept, hin.nodup⟩, fun _ => rfl, h.busy_same rfl⟩
    have hfile := file_ok (s := s.drop (.destroy t k owner)) (i := ⟨k, hk⟩) ht
    have hst := h.destroying hc ⟨k, hk⟩
    rw [hfile]
    show Ends _ _ (if (s.slot t ⟨k, hk⟩).status = .FD_OPENED then _ else _)
    rw [ends_ite]
    constructor
    · intro ho
      refine h.filemap_close g (Moves.drop hc) ho ?_ ?_
      · intro c hm
        obtain rfl := List.mem_singleton.1 hm
        exact ⟨rfl, rfl, rfl⟩
      · intro _ _
        exact (hst.resolve_left (by simp [ho])).2
    · intro hne
      exact h.loopOn hc rfl rfl rfl g fun _ _ => hst.resolve_right fun ho => hne ho.1
  · rw [dif_neg hk]
    have hf := (h.tableGone hc fun i => hdone i (Nat.lt_of_lt_of_le i.isLt (Nat.le_of_not_lt hk))).putDone
      owner
    exact ⟨hf.1, hf.2⟩

theorem Ok.fs_closeall (h : Ok s) (hr : s.runs pid) :
    Ends (Fine s) (fun _ => False) (fs_closeall s pid) := by
  obtain ⟨t, ht, hpt⟩ := h.procs pid hr.1
  have hcount := (h.of_proc hr.1 hpt).2
  have g := h.goes_ret (i := ⟨0, by decide⟩) hr hpt 0
  unfold filetable.fs_closeall
  rw [hpt]
  show Ends _ _ (s.fs t >>= _)
  rw [fs_ok ht]
  show Ends _ _ (if (s.table t).fs_count = 0 then _ else _)
  rw [if_neg hcount]
  refine ⟨h.same (i := ⟨0, by decide⟩) (o := s.open_count) (r := s.ref_count)
    ((Moves.refl _).push (Call.closeall pid t 2)) ht nofun ?_ ?_ ?_ ?_ (h.busy_start hr rfl) ?_,
    closes_mono (fun _ => Nat.le_refl _) rfl⟩
  · intro k
    simp [Call.slot]
  · intro node
    simp [Call.opened]
  · intro node
    simp [Call.held]
  · intro u
    simp [Call.dying, Call.swept]
  · intro c hc
    obtain rfl := List.mem_singleton.1 hc
    exact ⟨g.inside.procs, g.inside.own, nofun, g.inside.nodup⟩

end

/-! ## Runs -/

section

variable {s s' : Sys} {t : Tab} {pid : Pid}

/-- The current directory of a process changes. -/
theorem Ok.vfs_set_curdir (h : Ok s) (hr : s.runs pid) (dir : Node) :
    Ends (Fine s) (fun _ => False) (vfs_set_curdir s pid dir) := by
  obtain ⟨t, ht, hpt⟩ := h.procs pid hr.1
  have hcount := (h.of_proc hr.1 hpt).2
  have hd := h.not_dying hcount
  have hpwd : s.pwd t = (s.table t).pwd := if_pos hd
  have hend : ∀ r : Node → Nat,
      (∀ node, r node + holds (s.table t).pwd node = s.ref_count node + holds (some dir) node) →
      Ok { s.setTable t { s.table t with pwd := some dir } with ref_count := r } := by
    intro r hr
    have hslot := setTable_slot s (t := t) (g := { s.table t with pwd := some dir }) rfl
    have hfs : ∀ u, (update s.table t { s.table t with pwd := some dir } u).fs_count =
        (s.table u).fs_count := by
      intro u
      by_cases hu : u = t
      · rw [hu]
        simp
      · rw [update_of_ne hu]
    refine h.link rfl hslot (Moves.refl _) nofun rfl ?_ h.procs ?_ ?_ h.dying h.busy
    · intro node
      have h1 := hr node
      have h2 := refs_set (f := s.pwd)
        (g := ({ s.setTable t { s.table t with pwd := some dir } with ref_count := r } : Sys).pwd) ht
        (fun u _ hu => by
          unfold Sys.pwd
          rw [show ({ s.setTable t { s.table t with pwd := some dir } with ref_count := r } : Sys).table u =
            s.table u from setTable_ne s _ hu]
          rfl) node
      have h3 : ({ s.setTable t { s.table t with pwd := some dir } with ref_count := r } : Sys).pwd t =
          some dir := by
        refine (if_pos hd).trans ?_
        show (update s.table t _ t).pwd = _
        rw [update_self]
      rw [hpwd, h3] at h2
      show r node + s.others node + _ = _ + s.others node + _
      omega
    · intro u hu
      exact (hfs u).trans (h.fs_count u hu)
    · intro c hc
      have hin := h.inside c hc
      refine ⟨hin.procs, hin.own, fun u k hx => ?_, hin.nodup⟩
      obtain ⟨hu, h0, hj⟩ := hin.swept u k hx
      exact ⟨hu, (hfs u).trans h0, fun j hlt => (congrArg file.status (hslot u j)).trans (hj j hlt)⟩
  unfold filetable.vfs_set_curdir
  rw [hpt]
  show Ends _ _ (s.fs t >>= _)
  rw [fs_ok ht]
  show Ends _ _ (if (s.table t).pwd = some dir then _ else _)
  rw [ends_ite]
  refine ⟨fun _ => ⟨h, Closes.refl s⟩, fun hne => ?_⟩
  cases hp : (s.table t).pwd with
  | none =>
    rw [hp] at hend
    exact ⟨hend _ (update_add_holds s.ref_count dir), closes_mono (fun _ => Nat.le_refl _) rfl⟩
  | some old =>
    have hold : old ≠ dir := fun he => hne (by rw [hp, he])
    have hpos : 0 < s.ref_count old := by
      have h1 := h.ref_count old
      have h2 : 0 < refs s.tabs s.pwd old := refs_pos.2 ⟨t, ht, hpwd.trans hp⟩
      omega
    have hpos' : 0 < update s.ref_count dir (s.ref_count dir + 1) old := by
      rw [update_of_ne hold]
      exact hpos
    have hdec := inode_ref_dec_ok
      (s := (inode_ref_inc s dir).setTable t { s.table t with pwd := some dir }) old hpos'
    rw [hp] at hend
    show Ends _ _ (inode_ref_dec ((inode_ref_inc s dir).setTable t { s.table t with pwd := some dir }) old)
    rw [hdec]
    refine ⟨hend _ fun node => ?_, closes_mono (fun _ => Nat.le_refl _) rfl⟩
    rw [← update_add_holds s.ref_count dir node]
    exact update_sub_holds _ old node hpos'

theorem Ok.forkDone {child : Pid} (h : Ok s) (hc : .forking pid child ∈ s.calls)
    (copied : Bool) :
    Ends (Fine s) (fun _ => False) (Event.step s (.forkDone pid child copied)) := by
  have hin := h.inside _ hc
  have hne : pid ≠ child := by simpa [Call.pids] using hin.nodup
  obtain ⟨t, ht, hpt⟩ := h.procs pid (hin.procs pid (List.mem_cons_self))
  have hok := h.ended hc rfl rfl rfl rfl ht
  have hidle : ∀ p ∈ [pid, child], busyCount (s.drop (.forking pid child)).calls p = 0 := by
    intro p hp
    have h1 := moves_busyCount (Moves.drop hc) p
    have h2 := h.busy p
    rw [busyCount_singleton, busyCount_nil, if_pos (show p ∈ (Call.forking pid child).pids from hp)] at h1
    show busyCount (calls.goOn s.calls (.forking pid child) []) p = 0
    omega
  cases copied with
  | true => exact ⟨(hok.ret pid child).1, Closes.refl s⟩
  | false =>
    have hr : (s.drop (.forking pid child)).runs child := by
      refine ⟨hin.procs child (by simp [Call.pids]), fun c hm hp => ?_⟩
      have h0 := hidle child (by simp)
      exact absurd hp (by simpa using List.countP_eq_zero.1 h0 c hm)
    refine (hok.put_fs hr (some pid) fun p hp => ?_).mono (fun _ hf => ⟨hf.1, hf.2⟩)
      fun _ hf => hf
    obtain rfl := Option.some_inj.1 hp
    exact ⟨hin.procs _ (by simp [Call.pids]), hne, hidle _ (by simp)⟩

/-- Every step keeps the invariant, and no assertion fails but the one on an inode that cannot make
files. -/
theorem Ok.step (h : Ok s) (e : Event) (ha : e.Allowed s) :
    Ends (Fine s) (· = .vop_create) (e.step s) := by
  have hnever : ∀ {x : Except Failed Sys}, Ends (Fine s) (fun _ => False) x →
      Ends (Fine s) (· = .vop_create) x := fun hx => hx.mono (fun _ hf => hf) fun _ hf => hf.elim
  cases e with
  | file_open pid flags => exact hnever (h.file_open ha flags)
  | lookedUp pid t i flags answer => exact h.lookedUp ha answer
  | truncated pid t i flags node ret fstat st_size => exact hnever (h.truncated ha ret fstat st_size)
  | failingDone pid t i node value => exact hnever (h.failingDone ha)
  | failedDone pid t i value => exact hnever (h.freed ha rfl rfl rfl rfl value)
  | file_io pid fd op => exact hnever (h.file_io ha fd op)
  | ioDone pid t i op answer => exact hnever (h.ioDone ha answer)
  | file_close pid fd => exact hnever (h.file_close ha fd)
  | closingDone t i node next => exact hnever (h.closingDone ha)
  | closedDone t i next => exact hnever (h.closedDone ha)
  | file_dup pid fd1 fd2 => exact hnever (h.file_dup ha fd1 fd2)
  | copy_fs pid child clone_fs place => exact hnever (h.copy_fs ha.1 ha.2.1 clone_fs ha.2.2)
  | forkDone pid child copied => exact hnever (h.forkDone ha copied)
  | put_fs pid => exact hnever (h.put_fs ha none nofun)
  | destroyStep t i owner => exact hnever (h.destroyStep ha)
  | fs_closeall pid => exact hnever (h.fs_closeall ha)
  | closeallStep pid t i => exact hnever (h.closeallStep ha)
  | vfs_set_curdir pid dir => exact hnever (h.vfs_set_curdir ha dir)
  | vop_ref_inc node =>
    refine ⟨h.others (r := update s.ref_count node (s.ref_count node + 1)) fun n => ?_, Closes.refl s⟩
    have h1 := update_add_holds s.ref_count node n
    have h2 := update_add_holds s.others node n
    omega
  | vop_ref_dec node =>
    have hothers : 0 < s.others node := ha
    have hpos : 0 < s.ref_count node := by
      have := h.ref_count node
      omega
    have hdec := inode_ref_dec_ok
      (s := { s with others := update s.others node (s.others node - 1) }) node hpos
    show Ends _ _ (inode_ref_dec { s with others := update s.others node (s.others node - 1) } node)
    rw [hdec]
    refine ⟨h.others (r := update s.ref_count node (s.ref_count node - 1))
      (o := update s.others node (s.others node - 1)) fun n => ?_, Closes.refl s⟩
    have h1 := update_sub_holds s.ref_count node n hpos
    have h2 := update_sub_holds s.others node n hothers
    omega
  | inode_kill node =>
    have h0 : s.ref_count node = 0 := ha
    have hopen : s.open_count node = 0 := by
      have h1 := h.ref_count node
      have h2 := h.open_count node
      have h3 : s.opening node = 0 := by
        refine holding_eq_zero fun c hc hx => ?_
        have hheld : c.held = some node := by
          cases c <;> simp [Call.opened] at hx
          simp [Call.held, hx]
        have : 0 < holding Call.held s.calls node := holding_pos.2 ⟨c, hc, hheld⟩
        omega
      omega
    show Ends _ _ (if s.ref_count node ≠ 0 ∨ s.open_count node ≠ 0 then _ else _)
    rw [if_neg (by simp [h0, hopen])]
    exact ⟨h, Closes.refl s⟩

end

theorem boot_ok (idleproc : Pid) (t : Tab) : Ok (boot idleproc t) := by
  have hnone : ∀ node, (boot idleproc t).named node = 0 := fun _ => refs_eq_zero.2 fun _ _ => nofun
  have hpwd : ∀ node, refs (boot idleproc t).tabs (boot idleproc t).pwd node = 0 :=
    fun _ => refs_eq_zero.2 fun _ _ => nofun
  refine ⟨?_, ?_, ?_, ?_, ?_, nofun, fun _ => Nat.zero_le _, fun _ => Nat.zero_le _⟩
  · intro u _ i
    exact ⟨rfl, rfl, rfl, rfl, fun _ => rfl, by rintro (h | h) <;> cases h⟩
  · intro node
    rw [hnone]
    rfl
  · intro node
    rw [hnone, hpwd]
    rfl
  · intro pid hp
    obtain rfl := Finset.mem_singleton.1 hp
    exact ⟨t, Finset.mem_singleton_self t, if_pos rfl⟩
  · intro u hu
    obtain rfl := Finset.mem_singleton.1 hu
    simp [boot, refs, Finset.filter_singleton]

/-- The opens of the inode: the files that are opened, or closed and still in use, and the opens in
progress that are behind `vop_open_inc` and have no file yet. -/
def Sys.opens (s : Sys) (node : Node) : Nat := s.named node + s.opening node

/-- `vop_close` ran in the step once for an inode that has lost its last open in it, and not for the
others. -/
def LastCloses (s s' : Sys) : Prop :=
  ∀ node, s'.vop_closes node =
    s.vop_closes node + if 0 < s.opens node ∧ s'.opens node = 0 then 1 else 0

/-- The counts of the files and of the inodes. -/
structure Counted (s : Sys) : Prop where
  file : ∀ t ∈ s.tabs, ∀ i, (s.slot t i).open_count =
    s.operations t i + if (s.slot t i).status = .FD_OPENED then 1 else 0
  none : ∀ t ∈ s.tabs, ∀ i, (s.slot t i).status = .FD_NONE → (s.slot t i).open_count = 0
  inode : ∀ t ∈ s.tabs, ∀ i, (s.slot t i).status = .FD_OPENED ∨ (s.slot t i).status = .FD_CLOSED →
    (s.slot t i).node ≠ .none
  open_count : ∀ node, s.open_count node = s.opens node
  ref_count : ∀ node, s.ref_count node =
    s.named node + holding Call.held s.calls node + refs s.tabs s.pwd node + s.others node

/-- After every run the counts are right, no assertion of the tables or on a count of an inode has failed,
nor does one fail in the next step, and `vop_close` runs in the next step exactly for the inodes that
lose their last open in it. -/
theorem tables_ok (idleproc : Pid) (t : Tab) (es : List Event)
    (ha : AllAllowed Event.step Event.Allowed (boot idleproc t) es) :
    Ends (fun s => Counted s ∧
        ∀ e : Event, e.Allowed s → Ends (LastCloses s) (· = Failed.vop_create) (e.step s))
      (· = .vop_create) (runSteps Event.step (boot idleproc t) es) := by
  have hstep : ∀ (_ : Unit) s e, Ok s → Event.Allowed s e → Ends Ok (· = .vop_create) (Event.step s e) :=
    fun _ s e h hae => (h.step e hae).mono (fun _ hf => hf.1) fun _ hf => hf
  have hrun := @ends_run _ _ _ _ _ _ (fun u _ _ => u) _ _ hstep () _ _ (boot_ok idleproc t) ha
  refine hrun.mono (fun s h => ⟨?_, fun e hae => ?_⟩) fun _ hf => hf
  · exact ⟨fun u hu i => (h.slots u hu i).open_count,
      fun u hu i hst => (h.slots u hu i).unused (Or.inl hst), fun u hu i => (h.slots u hu i).node,
      h.open_count, h.ref_count⟩
  · refine (h.step e hae).mono (fun s' hf node => ?_) fun _ hf => hf
    unfold Sys.opens
    rw [← h.open_count, ← hf.1.open_count]
    exact hf.2 node

/-- A process and its child read the same file, and the parent closes it in the middle of its read. -/
def closedInUse : List Event :=
  [.file_open 0 2#32, .lookedUp 0 100 0 2#32 (.found 7 0), .truncated 0 100 0 2#32 7 0 0 0#32,
    .copy_fs 0 1 true none, .forkDone 0 1 true, .file_io 0 0 .file_read, .file_close 1 0]

theorem tables_ok_closedInUse : ∃ s,
    runSteps Event.step (boot 0 100) closedInUse = .ok s ∧ (s.slot 100 0).status = .FD_CLOSED ∧
      s.open_count 7 = s.opens 7 :=
  ⟨_, rfl, rfl, ((tables_ok 0 100 closedInUse (by decide +kernel)).ok rfl).1.open_count 7⟩

/-- An open that truncates waits in `vop_truncate`: the inode is open and no file names it. When the
truncation fails, `vop_close` runs and no file has gone. -/
theorem truncating_open_counts :
    let es : List Event := [.file_open 0 18#32, .lookedUp 0 100 0 18#32 (.found 7 0)]
    AllAllowed Event.step Event.Allowed (boot 0 100) es ∧
      ∃ s s', runSteps Event.step (boot 0 100) es = .ok s ∧ s.open_count 7 = 1 ∧ s.named 7 = 0 ∧
        (Event.truncated 0 100 0 18#32 7 (-5) 0 0#32).Allowed s ∧
        Event.step s (.truncated 0 100 0 18#32 7 (-5) 0 0#32) = .ok s' ∧
        s'.vop_closes 7 = s.vop_closes 7 + 1 ∧ s'.named 7 = 0 := by
  refine ⟨by decide +kernel, _, _, rfl, rfl, ?_, by decide +kernel, rfl, rfl, ?_⟩
  · decide +kernel
  · decide +kernel

end nehcpu.kernel.filetable
