-- `sfs_namefile`: the path of a directory, built from its end on the way up to the root. The counts
-- of the inodes on the way are right whatever fails.
import Nehcpu.Kernel.VfsLookup

namespace nehcpu.kernel.vfs

open Function nehcpu.command nehcpu.command.Cmd nehcpu.buffer nehcpu.kernel.fs

/-! ## The source -/

/-- The inodes, and the memory that the buffer is in. -/
structure Naming where
  v : Vfs
  mem : Buffer

abbrev NameM := Cmd Naming Int

def onVfs {α : Type} (m : VfsM α) : NameM α := fun s =>
  match m s.v with
  | .ok a v => .ok a { s with v }
  | .fail e v => .fail e { s with v }
  | .stop => .stop

/-- A copy to a place in the memory. -/
def store (off : Nat) (bs : List Byte) : NameM Unit :=
  modify fun s => { s with mem := patch s.mem off bs }

/-- What a turn of the loop meets: in the lookup of the parent, in the search of the parent, and of
which inodes the `sfs_reclaim` fails. -/
structure Level where
  once : Once
  find : Around
  keeps : Node → Bool

/-- Where the loop is: `ino` is the number of `node`. -/
structure Place where
  ino : Nat
  ptr : Nat
  resid : Nat

/-- `".."` -/
def DOTDOT : List Byte := [46#8, 46#8]

/-- A turn of the loop, and the next place if there is a next turn. -/
def namefileTurn (a : Level) (fs : Fs) (p : Place) : NameM (Option Place) := do
  let node := Node.sfs fs p.ino
  match ← attempt (onVfs (sfs_lookup_once a.once fs p.ino DOTDOT)) with
  | .error ret =>
    onVfs (vop_ref_dec a.keeps node)
    throw ret
  | .ok parent =>
    onVfs (vop_ref_dec a.keeps node)
    if node = parent then
      onVfs (vop_ref_dec a.keeps node)
      pure none
    else
      match parent with
      | .device _ => halt
      | .sfs _ ino =>
        check (p.ino ≠ ino ∧ ((← get).v.call fs ino).sin.din.type = SFS_TYPE_DIR)
        match ← attempt (onVfs (within fs ino (sfs_dirent_findino_nolock a.find p.ino))) with
        | .error ret =>
          onVfs (vop_ref_dec a.keeps parent)
          throw ret
        | .ok entry =>
          let alen := (str entry.name).length + 1
          if p.resid < alen then
            onVfs (vop_ref_dec a.keeps parent)
            throw (-E_NO_MEM)
          else
            store (p.ptr - alen) (str entry.name)
            store (p.ptr - 1) [SLASH]
            pure (some ⟨ino, p.ptr - alen, p.resid - alen⟩)

/-- The loop from its turn `i` on, for at most `fuel` turns: where it ends, if it does. -/
def namefileLoop (env : Nat → Level) (fs : Fs) : Nat → Nat → Place → NameM (Option Place)
  | _, 0, _ => pure none
  | i, fuel + 1, p => do
    match ← namefileTurn (env i) fs p with
    | some p' => namefileLoop env fs (i + 1) fuel p'
    | none => pure (some p)

/-- `memory` says that `kmalloc` has room for the entry. -/
def sfs_namefile (memory : Bool) (env : Nat → Level) (fuel : Nat) (fs : Fs) (ino : Nat)
    (iob : iobuf) : NameM (Option iobuf) := do
  if iob.io_resid ≤ 2 ∨ memory = false then throw (-E_NO_MEM)
  else
    onVfs (vop_ref_inc (.sfs fs ino))
    match ← namefileLoop env fs 0 fuel ⟨ino, iob.io_base + iob.io_resid, iob.io_resid - 2⟩ with
    | none => pure none
    | some p =>
      let alen := iob.io_resid - p.resid - 2
      store (iob.io_base + 1) (slice (← get).mem p.ptr alen)
      store iob.io_base [SLASH]
      store (iob.io_base + 1 + alen) [0]
      pure (some (← onVfs (within fs ino (iobuf_skip iob alen))))

/-! ## The path -/

def DOT : List Byte := [46#8]

/-- A component of a path. -/
structure Proper (name : List Byte) : Prop where
  ne : name ≠ []
  slash : SLASH ∉ name
  zero : 0 ∉ name
  dot : name ≠ DOT
  dotdot : name ≠ DOTDOT

/-- The names with a slash behind each. -/
def spelled (names : List (List Byte)) : List Byte := names.flatMap fun name => name ++ [SLASH]

/-- The path of an inode stands in the buffer, and a zero behind it. -/
structure Named (v : Vfs) (fs : Fs) (ino : Nat) (iob : iobuf) (names : List (List Byte))
    (mem : Buffer) : Prop where
  walk : v.walk (.sfs fs SFS_BLKN_ROOT) names = some (.sfs fs ino)
  proper : ∀ name ∈ names, Proper name
  fits : (SLASH :: spelled names ++ [0]).length ≤ iob.io_resid
  bytes : slice mem iob.io_base (SLASH :: spelled names ++ [0]).length =
    SLASH :: spelled names ++ [0]

/-- Nothing outside of the buffer has changed. -/
def Outside (iob : iobuf) (mem mem' : Buffer) : Prop :=
  ∀ i, i < iob.io_base ∨ iob.io_base + iob.io_resid ≤ i → mem' i = mem i

/-- A directory of the file system. -/
def Vfs.IsDir (v : Vfs) (inodes : Fs → Nat → Prop) (fs : Fs) (ino : Nat) : Prop :=
  inodes fs ino ∧ (v.call fs ino).sin.din.type = SFS_TYPE_DIR

/-- `..` is the parent of a directory, and leads up to the root; `.` is the directory itself. A name
is not empty and stands once in its directory. -/
structure Climbs (inodes : Fs → Nat → Prop) (v : Vfs) (fs : Fs) (depth : Nat → Nat) : Prop where
  parent : ∀ ino, v.IsDir inodes fs ino →
    ∃ up, findName (entries (v.call fs ino)) DOTDOT = some up ∧ v.IsDir inodes fs up ∧
      (up = ino → ino = SFS_BLKN_ROOT) ∧ (up ≠ ino → depth up < depth ino)
  dot : ∀ ino, v.IsDir inodes fs ino → ∀ e ∈ used (entries (v.call fs ino)),
    str e.name = DOT → e.ino = ino
  names : ∀ ino, v.IsDir inodes fs ino →
    (names (v.call fs ino)).Nodup ∧ [] ∉ names (v.call fs ino)

section

variable {inodes : Fs → Nat → Prop} {v t : Vfs} {fs : Fs} {depth : Nat → Nat} {ino target : Nat}
  {iob : iobuf} {mem : Buffer} {a : Level} {p : Place} {ns : List (List Byte)} {s : Naming}
  {X : Prop} {E : Int → Vfs → Prop}

/-! ## The parts of a turn -/

theorem wp_onVfs {α : Type} {m : VfsM α} {Q : α → Naming → Prop} {E : Int → Naming → Prop}
    (h : Wp m (fun a v => Q a ⟨v, s.mem⟩) (fun e v => E e ⟨v, s.mem⟩) X s.v) :
    Wp (onVfs m) Q E X s := by
  unfold Wp onVfs at *
  cases hm : m s.v with
  | ok a v =>
    rw [hm] at h
    exact h
  | fail e v =>
    rw [hm] at h
    exact h
  | stop =>
    rw [hm] at h
    exact h

theorem present_of_refs {node : Node} (h : 0 < v.refs node) : v.Present node := by
  unfold Vfs.Present
  unfold Vfs.refs at h
  cases hm : v.mem node with
  | none =>
    rw [hm] at h
    exact absurd h (Nat.lt_irrefl 0)
  | some i => rfl

/-- A reference is dropped, maybe the last one. -/
theorem drops (T : Tree inodes v) {r : Node → Nat} {node : Node} (hnode : node = .sfs fs ino)
    (h : At v.mount (bump r node) v.opens t) (hr : v.refs node ≤ r node) (keeps : Node → Bool) :
    Wp (vop_ref_dec keeps node) (fun _ u => At v.mount r v.opens u) E X t := by
  have href : t.refs node = r node + 1 := by
    rw [h.refs, bump_self]
  have hcount := (T.counts node).1
  have hdec : Wp (vop_ref_dec keeps node) (fun _ _ => True) E X t := by
    apply Wp.mono (there_ref_dec (present_of_refs _) _ _ _ keeps) (fun _ _ _ => trivial)
      (fun _ _ he => he) id
    · omega
    · omega
    · rw [href, h.opens]
      omega
    · rintro dev rfl
      cases hnode
  exact Wp.mono ((wp_ref_dec h keeps (E := E)).and hdec) (fun _ _ hu => hu.1) (fun _ _ he => he.1)
    fun hx => hx.2

theorem wp_findinoLoop {held : Nat → Prop} {c : Call} {env : Around} {i n : Nat}
    (h : Mapped held c) (hd : c.sin.din.type = SFS_TYPE_DIR) (hn : i + n ≤ c.blocks) (ino : Nat) :
    Wp (findinoLoop env ino i n) (fun e t => t = c ∧ e ∈ slots c i n ∧ e.ino = ino)
      (fun ret t => t = c ∧ ret ≠ 0) X c := by
  induction n generalizing i with
  | zero => exact ⟨rfl, by decide⟩
  | succ n ih =>
    unfold findinoLoop
    rw [wp_bind]
    apply Wp.mono (wp_dirent_read h hd (by omega)) _ (fun _ _ he => ⟨he.1, he.2.1⟩) id
    rintro _ t ⟨ht, rfl⟩
    rw [ht, wp_ite, slots_succ]
    by_cases hino : (entry c i).ino = ino
    · rw [if_pos hino]
      exact ⟨rfl, List.mem_cons_self, hino⟩
    · rw [if_neg hino]
      apply Wp.mono (ih (by omega)) _ (fun _ _ he => he) id
      exact fun e t he => ⟨he.1, List.mem_cons_of_mem _ he.2.1, he.2.2⟩

/-- An entry of the child is found in a directory, or the search fails. -/
theorem wp_findino (T : Tree inodes v) (ht : t.mount = v.mount) (hdir : v.IsDir inodes fs ino)
    {env : Around} {child : Nat} (hchild : child ≠ 0) :
    Wp (within fs ino (sfs_dirent_findino_nolock env child))
      (fun e u => u = t ∧ e ∈ used (entries (v.call fs ino)) ∧ e.ino = child)
      (fun ret u => u = t ∧ ret ≠ 0) X t := by
  obtain ⟨held, hmap⟩ := T.mapped fs ino hdir.1
  apply wp_within
  rw [call_eq ht]
  unfold sfs_dirent_findino_nolock
  rw [wp_bind, wp_get]
  apply Wp.mono (wp_findinoLoop hmap hdir.2 (Nat.zero_add _).le child) _ _ id
  · rintro e c ⟨hc, he, hino⟩
    rw [hc, ← call_eq ht, setCall_call]
    refine ⟨rfl, ?_, hino⟩
    rw [call_eq ht]
    exact List.mem_filter.2 ⟨he, by simpa [hino] using hchild⟩
  · rintro ret c ⟨hc, hret⟩
    rw [hc, ← call_eq ht, setCall_call]
    exact ⟨rfl, hret⟩

/-- Where each name stands once, an entry is what its name stands for. -/
theorem findName_of_mem {es : List sfs_disk_entry}
    (h : ((used es).map fun e => str e.name).Nodup) {e : sfs_disk_entry} (he : e ∈ used es) :
    findName es (str e.name) = some e.ino := by
  unfold findName
  generalize used es = us at h he
  induction us with
  | nil => cases he
  | cons b bs ih =>
    rw [List.map_cons, List.nodup_cons] at h
    rw [List.find?_cons]
    rcases List.mem_cons.1 he with rfl | he
    · rw [decide_eq_true rfl]
      rfl
    · have hne : str e.name ≠ str b.name := by
        intro heq
        rw [← heq] at h
        exact h.1 (List.mem_map_of_mem he)
      rw [decide_eq_false hne]
      exact ih h.2 he

/-! ## A turn -/

/-- What the loop has made of the path at a place. -/
structure Built (v : Vfs) (fs : Fs) (target : Nat) (iob : iobuf) (mem : Buffer) (p : Place)
    (ns : List (List Byte)) (mem' : Buffer) : Prop where
  walk : v.walk (.sfs fs p.ino) ns = some (.sfs fs target)
  proper : ∀ name ∈ ns, Proper name
  room : p.ptr = iob.io_base + 2 + p.resid
  fills : p.resid + (spelled ns).length + 2 = iob.io_resid
  bytes : slice mem' p.ptr (spelled ns).length = spelled ns
  kept : Outside iob mem mem'

theorem spelled_cons (name : List Byte) (ns : List (List Byte)) :
    spelled (name :: ns) = (name ++ [SLASH]) ++ spelled ns := rfl

/-- One name goes before the others. -/
theorem Built.cons {mem' : Buffer} (h : Built v fs target iob mem p ns mem') {up : Nat}
    {name : List Byte} (hdir : (v.call fs up).sin.din.type = SFS_TYPE_DIR)
    (hname : findName (entries (v.call fs up)) name = some p.ino) (hp : Proper name)
    (hlen : name.length + 1 ≤ p.resid) :
    Built v fs target iob mem ⟨up, p.ptr - (name.length + 1), p.resid - (name.length + 1)⟩
      (name :: ns) (patch (patch mem' (p.ptr - (name.length + 1)) name) (p.ptr - 1) [SLASH]) := by
  have hroom := h.room
  have hfills := h.fills
  obtain ⟨q, hq⟩ : ∃ q, p.ptr = q + (name.length + 1) := ⟨p.ptr - (name.length + 1), by omega⟩
  have hone : p.ptr - 1 = q + name.length := by omega
  have hsub : p.ptr - (name.length + 1) = q := by omega
  have hlast : (name ++ [SLASH]).length = name.length + 1 := List.length_append
  rw [hone, hsub, patch_patch]
  refine ⟨?_, List.forall_mem_cons.2 ⟨hp, h.proper⟩, ?_, ?_, ?_, ?_⟩
  · unfold Vfs.walk
    rw [if_pos hdir, hname]
    exact h.walk
  · show q = iob.io_base + 2 + (p.resid - (name.length + 1))
    omega
  · show p.resid - (name.length + 1) + (spelled (name :: ns)).length + 2 = iob.io_resid
    rw [spelled_cons, List.length_append, hlast]
    omega
  · show slice (patch mem' q (name ++ [SLASH])) q (spelled (name :: ns)).length = _
    have hrest : slice (patch mem' q (name ++ [SLASH])) (q + (name ++ [SLASH]).length)
        (spelled ns).length = spelled ns := by
      rw [slice_patch_of_apart _ _ _ (Or.inr (Nat.le_refl _)), hlast, ← hq]
      exact h.bytes
    rw [spelled_cons, List.length_append, slice_append, slice_patch, hrest]
  · intro i hi
    rw [patch_out]
    · exact h.kept i hi
    · rw [hlast]
      omega

/-- The name of a child is none of those that lead back. -/
theorem proper_name (T : Tree inodes v) (C : Climbs inodes v fs depth) {up : Nat}
    (hdir : v.IsDir inodes fs up) {e : sfs_disk_entry} (he : e ∈ used (entries (v.call fs up)))
    (hup : up ≠ e.ino) (hdepth : depth up < depth e.ino) : Proper (str e.name) where
  ne h := (C.names up hdir).2 (h ▸ List.mem_map_of_mem he)
  slash := (T.entry fs up hdir.1 hdir.2 e he).2
  zero h := by
    have hall := List.all_eq_true.1 List.all_takeWhile 0 h
    simp at hall
  dot h := hup (C.dot up hdir e he h).symm
  dotdot h := by
    have hfind := findName_of_mem (C.names up hdir).1 he
    obtain ⟨above, habove, -, -, hlt⟩ := C.parent up hdir
    rw [h, habove, Option.some.injEq] at hfind
    rw [hfind] at hlt
    have hless := hlt hup.symm
    omega

/-- The counts are as before, and the memory outside of the buffer. -/
structure Undone (v : Vfs) (iob : iobuf) (mem : Buffer) (s : Naming) : Prop where
  counts : At v.mount v.refs v.opens s.v
  kept : Outside iob mem s.mem

/-- A turn ends at the root, or takes the loop up to the parent, or gives back what is held. -/
theorem wp_turn (T : Tree inodes v) (C : Climbs inodes v fs depth)
    (hat : At v.mount (bump v.refs (.sfs fs p.ino)) v.opens s.v)
    (hdir : v.IsDir inodes fs p.ino) (h : Built v fs target iob mem p ns s.mem) :
    Wp (namefileTurn a fs p)
      (fun r t => match r with
        | none => p.ino = SFS_BLKN_ROOT ∧ At v.mount v.refs v.opens t.v ∧ t.mem = s.mem
        | some p' => depth p'.ino < depth p.ino ∧ v.IsDir inodes fs p'.ino ∧
          At v.mount (bump v.refs (.sfs fs p'.ino)) v.opens t.v ∧
          ∃ ns', Built v fs target iob mem p' ns' t.mem)
      (fun ret t => ret ≠ 0 ∧ Undone v iob mem t) X s := by
  obtain ⟨up, hup, hupdir, hroot, hdepth⟩ := C.parent p.ino hdir
  unfold namefileTurn
  simp only
  rw [wp_bind, wp_attempt]
  apply wp_onVfs
  apply Wp.mono ((takes_lookup_once hat a.once DOTDOT).and
    (there_lookup_once T hat.mount hdir.1 hdir.2 (by decide) a.once)) _ _ fun hx => hx.2
  · rintro parent w ⟨hw, hparent, -⟩
    rw [hup, Option.map_some, Option.some.injEq] at hparent
    obtain rfl := hparent
    rw [bump_comm] at hw
    rw [wp_bind]
    apply wp_onVfs
    apply Wp.mono (drops T rfl hw (le_bump _ _ _) a.keeps) _ (fun _ _ he => he) id
    intro _ u hu
    rw [wp_ite]
    by_cases hsame : Node.sfs fs p.ino = .sfs fs up
    · have hino : up = p.ino := (Node.sfs.inj hsame).2.symm
      rw [if_pos hsame, wp_bind]
      apply wp_onVfs
      rw [← hsame] at hu
      apply Wp.mono (drops T rfl hu (Nat.le_refl _) a.keeps) _ (fun _ _ he => he) id
      exact fun _ x hx => ⟨hroot hino, hx, rfl⟩
    · have hino : p.ino ≠ up := fun hn => hsame (hn ▸ rfl)
      have hlt := hdepth hino.symm
      have hgive : ∀ {ret : Int}, ret ≠ 0 → Wp (do
          onVfs (vop_ref_dec a.keeps (.sfs fs up))
          throw ret : NameM (Option Place)) (fun _ _ => False)
          (fun ret t => ret ≠ 0 ∧ Undone v iob mem t) X ⟨u, s.mem⟩ := by
        intro ret hret
        rw [wp_bind]
        apply wp_onVfs
        apply Wp.mono (drops T rfl hu (Nat.le_refl _) a.keeps) _ (fun _ _ he => he) id
        exact fun _ x hx => ⟨hret, hx, h.kept⟩
      rw [if_neg hsame]
      simp only
      rw [wp_bind, wp_get, wp_bind, wp_check, call_eq hu.mount, if_pos ⟨hino, hupdir.2⟩, wp_bind,
        wp_attempt]
      apply wp_onVfs
      apply Wp.mono (wp_findino T hu.mount hupdir (T.block fs p.ino hdir.1).1) _ _ id
      · rintro e x ⟨hx, he, heino⟩
        rw [hx, wp_ite]
        by_cases hlen : p.resid < (str e.name).length + 1
        · rw [if_pos hlen]
          exact Wp.mono (hgive (by decide)) (fun _ _ hq => hq.elim) (fun _ _ he => he) id
        · rw [if_neg hlen]
          have hname := findName_of_mem (C.names up hupdir).1 he
          have hproper : Proper (str e.name) :=
            proper_name T C hupdir he (heino ▸ hino.symm) (heino ▸ hlt)
          rw [heino] at hname
          exact ⟨hlt, hupdir, hu, _, h.cons hupdir.2 hname hproper (Nat.le_of_not_lt hlen)⟩
      · rintro ret x ⟨hx, hret⟩
        rw [hx]
        exact Wp.mono (hgive hret) (fun _ _ hq => hq.elim) (fun _ _ he => he) id
  · rintro ret w ⟨hw, hret, -⟩
    rw [wp_bind]
    apply wp_onVfs
    apply Wp.mono (drops T rfl hw (Nat.le_refl _) a.keeps) _ (fun _ _ he => he) id
    exact fun _ x hx => ⟨hret, hx, h.kept⟩

/-! ## The climb -/

/-- The loop ends after as many turns as the directory is deep, and one for the root. -/
theorem wp_namefileLoop (T : Tree inodes v) (C : Climbs inodes v fs depth) (env : Nat → Level)
    {fuel i : Nat} (hat : At v.mount (bump v.refs (.sfs fs p.ino)) v.opens s.v)
    (hdir : v.IsDir inodes fs p.ino) (h : Built v fs target iob mem p ns s.mem)
    (hfuel : depth p.ino < fuel) :
    Wp (namefileLoop env fs i fuel p)
      (fun r t => ∃ p' ns', r = some p' ∧ p'.ino = SFS_BLKN_ROOT ∧
        At v.mount v.refs v.opens t.v ∧ Built v fs target iob mem p' ns' t.mem)
      (fun ret t => ret ≠ 0 ∧ Undone v iob mem t) X s := by
  induction fuel generalizing i p ns s with
  | zero => exact absurd hfuel (Nat.not_lt_zero _)
  | succ fuel ih =>
    unfold namefileLoop
    rw [wp_bind]
    apply Wp.mono (wp_turn T C hat hdir h) _ (fun _ _ he => he) id
    rintro r t ht
    cases r with
    | none =>
      obtain ⟨hroot, hcounts, hmem⟩ := ht
      refine ⟨p, ns, rfl, hroot, hcounts, ?_⟩
      rw [hmem]
      exact h
    | some p' =>
      obtain ⟨hlt, hdir', hat', ns', h'⟩ := ht
      exact ih hat' hdir' h' (by omega)

/-- The path goes to the start of the buffer, between a slash and a zero. -/
theorem Built.named {mem' : Buffer} (h : Built v fs target iob mem p ns mem')
    (hroot : p.ino = SFS_BLKN_ROOT) :
    Named v fs target iob ns
        (patch (patch (patch mem' (iob.io_base + 1) (spelled ns)) iob.io_base [SLASH])
          (iob.io_base + 1 + (spelled ns).length) [0]) ∧
      Outside iob mem
        (patch (patch (patch mem' (iob.io_base + 1) (spelled ns)) iob.io_base [SLASH])
          (iob.io_base + 1 + (spelled ns).length) [0]) := by
  have hfills := h.fills
  have hlen : (SLASH :: spelled ns ++ [0]).length = 1 + ((spelled ns).length + 1) := by
    simp only [List.length_append, List.length_cons, List.length_nil]
    omega
  refine ⟨⟨?_, h.proper, ?_, ?_⟩, ?_⟩
  · rw [← hroot]
    exact h.walk
  · omega
  · rw [hlen, slice_append, slice_append]
    have h1 : slice (patch (patch (patch mem' (iob.io_base + 1) (spelled ns)) iob.io_base [SLASH])
        (iob.io_base + 1 + (spelled ns).length) [0]) iob.io_base 1 = [SLASH] := by
      rw [slice_patch_of_apart _ _ _ (Or.inl (by omega))]
      exact slice_patch _ _ [SLASH]
    have h2 : slice (patch (patch (patch mem' (iob.io_base + 1) (spelled ns)) iob.io_base [SLASH])
        (iob.io_base + 1 + (spelled ns).length) [0]) (iob.io_base + 1) (spelled ns).length =
          spelled ns := by
      have hone : iob.io_base + [SLASH].length ≤ iob.io_base + 1 := Nat.le_refl _
      rw [slice_patch_of_apart _ _ _ (Or.inl (Nat.le_refl _)),
        slice_patch_of_apart _ _ _ (Or.inr hone), slice_patch]
    have h3 : slice (patch (patch (patch mem' (iob.io_base + 1) (spelled ns)) iob.io_base [SLASH])
        (iob.io_base + 1 + (spelled ns).length) [0])
          (iob.io_base + 1 + (spelled ns).length) 1 = [0] := slice_patch _ _ [0]
    rw [h1, h2, h3]
    rfl
  · intro i hi
    rw [patch_out, patch_out, patch_out]
    · exact h.kept i hi
    · omega
    · simp only [List.length_cons, List.length_nil]
      omega
    · simp only [List.length_cons, List.length_nil]
      omega

/-- The name of a directory is found in as many turns as it takes to the root, or an error says why
not. The counts of all inodes are as before in any case. -/
theorem namefile_names_directory (T : Tree inodes v) (C : Climbs inodes v fs depth)
    (hdir : v.IsDir inodes fs ino) (hheld : 0 < v.refs (.sfs fs ino)) (memory : Bool)
    (env : Nat → Level) (iob : iobuf) (mem : Buffer) :
    ∃ n, ∀ fuel, n ≤ fuel → Wp (sfs_namefile memory env fuel fs ino iob)
      (fun r t => Undone v iob mem t ∧ r.isSome ∧ ∃ ns, Named v fs ino iob ns t.mem)
      (fun ret t => ret ≠ 0 ∧ Undone v iob mem t) False ⟨v, mem⟩ := by
  refine ⟨depth ino + 1, ?_⟩
  intro fuel hfuel
  have hv : At v.mount v.refs v.opens v := ⟨rfl, rfl, rfl⟩
  unfold sfs_namefile
  rw [wp_ite]
  split
  · exact ⟨by decide, hv, fun _ _ => rfl⟩
  · rename_i hroom
    have hresid : 2 < iob.io_resid := by omega
    rw [wp_bind]
    apply wp_onVfs
    apply Wp.mono ((wp_ref_inc hv (E := fun _ _ => False)).and
      (there_ref_inc (present_of_refs hheld) (E := fun _ _ => False))) _
      (fun _ _ he => he.1.elim) fun hx => hx.2
    rintro _ w ⟨hw, -⟩
    have hstart : Built v fs ino iob mem
        ⟨ino, iob.io_base + iob.io_resid, iob.io_resid - 2⟩ [] mem := by
      refine ⟨?_, by simp, ?_, ?_, rfl, fun _ _ => rfl⟩
      · unfold Vfs.walk
        rfl
      · show iob.io_base + iob.io_resid = iob.io_base + 2 + (iob.io_resid - 2)
        omega
      · show iob.io_resid - 2 + 0 + 2 = iob.io_resid
        omega
    rw [wp_bind]
    apply Wp.mono (wp_namefileLoop T C env hw hdir hstart hfuel) _ (fun _ _ he => he) id
    rintro r t ⟨p, ns, rfl, hroot, hcounts, hbuilt⟩
    have hlen : iob.io_resid - p.resid - 2 = (spelled ns).length := by
      have hfills := hbuilt.fills
      omega
    have hfit : (spelled ns).length ≤ iob.io_resid := by omega
    simp only [hlen, wp_bind, wp_get]
    rw [hbuilt.bytes]
    obtain ⟨hnamed, hkept⟩ := hbuilt.named hroot
    apply wp_onVfs
    apply wp_within
    unfold iobuf_skip
    rw [wp_bind, wp_check, if_pos hfit, wp_pure, setCall_call]
    exact ⟨⟨hcounts, hkept⟩, rfl, ns, hnamed⟩

end

/-! ## A small tree -/

/-- Eight blocks, the root with the entries `..` and `d`, and the directory `d` in it with `..`. -/
def oneSubdir : Vfs where
  mem node := if node = .sfs 0 1 ∨ node = .sfs 0 3 then some ⟨1, 0⟩ else none
  mount _ :=
    { sfs := { dotAndA.sfs with
        disk := fun b => if b = 4 ∨ b = 6 then entryBlock 1 DOTDOT
          else if b = 5 then entryBlock 3 [100] else Buffer.zero }
      sin := fun ino =>
        if ino = 3 then ⟨⟨4096, SFS_TYPE_DIR, 1, 1, fun i => if i = 0 then 6 else 0, 0⟩, 3, false⟩
        else ⟨⟨8192, SFS_TYPE_DIR, 1, 2, fun i => if i < 2 then 4 + i else 0, 0⟩, 1, false⟩ }
  vdev_list := []
  bootfs_node := none
  pwd := some (.sfs 0 3)
  filemap i := ⟨.FD_NONE, false, false, i.val, 0#32, none, 0⟩

theorem oneSubdir_root : Mapped (fun b => b < 4 ∨ b = 6) (oneSubdir.call 0 1) where
  free := ⟨by decide, by decide, by decide, by decide +kernel, by decide +kernel⟩
  ledger := ⟨by decide +kernel, by decide +kernel, by decide +kernel, by decide +kernel,
    by decide +kernel⟩
  bound := by decide
  none := by
    intro i hi _
    have h2 : 2 ≤ i := hi
    have hd : (oneSubdir.call 0 1).sin.din.direct i = 0 := if_neg (Nat.not_lt.2 h2)
    have hin : (oneSubdir.call 0 1).sin.din.indirect = 0 := rfl
    simp only [bmap, hd, hin, if_true, ite_self]
  zero := by decide
  own := by decide

theorem oneSubdir_sub : Mapped (· < 6) (oneSubdir.call 0 3) where
  free := ⟨by decide, by decide, by decide, by decide +kernel, by decide +kernel⟩
  ledger := ⟨by decide +kernel, by decide +kernel, by decide +kernel, by decide +kernel,
    by decide +kernel⟩
  bound := by decide
  none := by
    intro i hi _
    have h1 : 1 ≤ i := hi
    have h0 : i ≠ 0 := by omega
    simp [bmap, Vfs.call, oneSubdir, h0]
  zero := by decide
  own := by decide

theorem oneSubdir_tree : Tree (fun fs ino => fs = 0 ∧ (ino = 1 ∨ ino = 3)) oneSubdir where
  mapped := by
    rintro fs ino ⟨rfl, rfl | rfl⟩
    · exact ⟨_, oneSubdir_root⟩
    · exact ⟨_, oneSubdir_sub⟩
  block := by
    rintro fs ino ⟨rfl, rfl | rfl⟩
    · decide +kernel
    · decide +kernel
  links := by
    rintro fs ino ⟨rfl, rfl | rfl⟩
    · decide
    · decide
  type := by
    rintro fs ino ⟨rfl, rfl | rfl⟩
    · decide
    · decide
  entry := by
    rintro fs ino ⟨rfl, rfl | rfl⟩ -
    · decide +kernel
    · decide +kernel
  root := by
    rintro fs ino ⟨rfl, -⟩
    exact ⟨⟨rfl, Or.inl rfl⟩, by decide⟩
  held := by
    rintro node (h | h)
    · obtain rfl := Option.some.inj h
      exact ⟨rfl, by decide, 0, 3, rfl, ⟨rfl, Or.inr rfl⟩, by decide⟩
    · cases h
  device := by
    intro vdev h
    cases h
  counts := by
    intro node
    unfold Vfs.opens Vfs.refs oneSubdir
    by_cases h : node = .sfs 0 1 ∨ node = .sfs 0 3
    · simp only [h, if_true]
      decide
    · simp only [h, if_false]
      decide

theorem oneSubdir_climbs :
    Climbs (fun fs ino => fs = 0 ∧ (ino = 1 ∨ ino = 3)) oneSubdir 0 (fun ino => ino) where
  parent := by
    rintro ino ⟨⟨-, rfl | rfl⟩, -⟩
    · exact ⟨1, by decide +kernel, ⟨⟨rfl, Or.inl rfl⟩, by decide⟩, fun _ => rfl, by decide⟩
    · exact ⟨1, by decide +kernel, ⟨⟨rfl, Or.inl rfl⟩, by decide⟩, by decide, by decide⟩
  dot := by
    rintro ino ⟨⟨-, rfl | rfl⟩, -⟩
    · decide +kernel
    · decide +kernel
  names := by
    rintro ino ⟨⟨-, rfl | rfl⟩, -⟩
    · decide +kernel
    · decide +kernel

def Level.fine : Level := ⟨⟨true, quiet, .fine⟩, quiet, fun _ => false⟩

theorem namefile_names_directory_d :
    ∃ n, ∀ fuel, n ≤ fuel → Wp (sfs_namefile true (fun _ => .fine) fuel 0 3 (iobuf_init 0 16 0))
      (fun r t => Undone oneSubdir (iobuf_init 0 16 0) Buffer.zero t ∧ r.isSome ∧
        ∃ ns, Named oneSubdir 0 3 (iobuf_init 0 16 0) ns t.mem)
      (fun ret t => ret ≠ 0 ∧ Undone oneSubdir (iobuf_init 0 16 0) Buffer.zero t) False
      ⟨oneSubdir, Buffer.zero⟩ :=
  namefile_names_directory oneSubdir_tree oneSubdir_climbs ⟨⟨rfl, Or.inr rfl⟩, by decide⟩
    (by decide) true _ _ _

/-- The directory is `/d/`. -/
example : (sfs_namefile true (fun _ => .fine) 2 0 3 (iobuf_init 0 16 0)
    ⟨oneSubdir, Buffer.zero⟩).Returns fun _ t => slice t.mem 0 4 = [47, 100, 47, 0] := by
  decide +kernel

end nehcpu.kernel.vfs
