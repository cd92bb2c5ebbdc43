-- `sysfile_read` and `sysfile_write`: a transfer between an open file and the memory of a process,
-- in pieces of 4096 bytes. The position of the file is right but where a piece that was read does
-- not get to the process.
import Nehcpu.Kernel.SfsDir
import Nehcpu.Kernel.UserCopy

namespace nehcpu.kernel.sysfile

open Function nehcpu.command nehcpu.command.Cmd nehcpu.buffer nehcpu.kernel.fs
open cpu hiding Except
open filetable (Fd file testfd)

/-! ## The source -/

def IOBUF_SIZE : Nat := 4096

/-- `vop_read` and `vop_write` of an inode: what they return, with the bytes by which the `iobuf`
went on. `ν` is what the inode is on, and `α` what a call meets there. -/
structure inode_ops (ν α : Type) where
  vop_read : α → Word → Nat → Cmd ν Int (Int × List Byte)
  vop_write : α → Word → List Byte → Cmd ν Int (Int × List Byte)

/-- The process and its memory, and the inode of the file. -/
structure Proc (ν : Type) where
  filemap : Fd → file
  node : ν
  mm : Mm
  mem : Buffer

/-- A call fails where an operation of the inode does not return; it has nothing to do with its
result. -/
abbrev ProcM (ν : Type) := Cmd (Proc ν) Unit

section

variable {ν α β : Type}

def onNode (m : Cmd ν Int β) : ProcM ν β := fun s =>
  match m s.node with
  | .ok a node => .ok a { s with node }
  | _ => .fail () s

def setFile (i : Fd) (f : file → file) : ProcM ν Unit :=
  modify fun s => { s with filemap := update s.filemap i (f (s.filemap i)) }

def filemap_acquire (i : Fd) : ProcM ν Unit := do
  check (((← get).filemap i).status = .FD_OPENED)
  setFile i fun f => { f with open_count := f.open_count + 1 }

/-- `filemap_free` asserts that the file is not open any more. -/
def filemap_release (i : Fd) : ProcM ν Unit := do
  let f := (← get).filemap i
  check ((f.status = .FD_OPENED ∨ f.status = .FD_CLOSED) ∧ 0 < f.open_count)
  setFile i fun f => { f with open_count := f.open_count - 1 }
  if f.open_count - 1 = 0 then halt else pure ()

def file_testfd (filemap : Fd → file) (fd : Int) (readable writable : Bool) : Bool :=
  match fd2file filemap fd with
  | none => false
  | some f => (!readable || f.readable) && (!writable || f.writable)

/-- `file_read` and `file_write`, with the bytes whose number is `*copied_store`. -/
def file_io (permitted : file → Bool) (op : Word → Cmd ν Int (Int × List Byte)) (fd : Int) :
    ProcM ν (Int × List Byte) := do
  let filemap := (← get).filemap
  match testfd fd, fd2file filemap fd with
  | some i, some f =>
    if permitted f then
      filemap_acquire i
      let (ret, bs) ← onNode (op f.pos)
      setFile i fun f =>
        if f.status = .FD_OPENED then { f with pos := f.pos + BitVec.ofNat 32 bs.length } else f
      filemap_release i
      pure (ret, bs)
    else pure (-E_INVAL, [])
  | _, _ => pure (-E_INVAL, [])

def file_read (ops : inode_ops ν α) (a : α) (fd : Int) (len : Nat) : ProcM ν (Int × List Byte) :=
  file_io (·.readable) (fun pos => ops.vop_read a pos len) fd

def file_write (ops : inode_ops ν α) (a : α) (fd : Int) (data : List Byte) :
    ProcM ν (Int × List Byte) :=
  file_io (·.writable) (fun pos => ops.vop_write a pos data) fd

def memCheck (addr : Word) (len : Nat) (write : Bool) : ProcM ν Bool := do
  let mm := (← get).mm
  let (ok, mm') := user_mem_check (some mm) addr (BitVec.ofNat 32 len) write
  modify fun s => { s with mm := mm'.getD mm }
  pure ok

def copy_to_user (dst : Word) (src : List Byte) : ProcM ν Bool := do
  if ← memCheck dst src.length true then
    modify fun s => { s with mem := patch s.mem dst.toNat src }
    pure true
  else pure false

/-- The bytes, if the process may read them. -/
def copy_from_user (src : Word) (len : Nat) (writable : Bool) : ProcM ν (Option (List Byte)) := do
  if ← memCheck src len writable then pure (some (slice (← get).mem src.toNat len))
  else pure none

/-- The loop of `sysfile_read` with `ret` and `copied` at its end. Each turn but the last moves some
bytes, so `fuel` is enough if it is `len` at first. -/
def readLoop (ops : inode_ops ν α) (answers : Nat → α) (fd : Int) :
    Nat → Nat → Word → Nat → Nat → ProcM ν (Int × Nat)
  | 0, _, _, len, copied => do
    check (len = 0)
    pure (0, copied)
  | fuel + 1, turn, base, len, copied =>
    if len = 0 then pure (0, copied)
    else do
      let (ret, bs) ← file_read ops (answers turn) fd (min IOBUF_SIZE len)
      if bs = [] then pure (ret, copied)
      else if ← copy_to_user base bs then
        check (bs.length ≤ len)
        if ret ≠ 0 then pure (ret, copied + bs.length)
        else
          readLoop ops answers fd fuel (turn + 1) (base + BitVec.ofNat 32 bs.length)
            (len - bs.length) (copied + bs.length)
      else pure (if ret = 0 then -E_INVAL else ret, copied)

def writeLoop (ops : inode_ops ν α) (answers : Nat → α) (fd : Int) :
    Nat → Nat → Word → Nat → Nat → ProcM ν (Int × Nat)
  | 0, _, _, len, copied => do
    check (len = 0)
    pure (0, copied)
  | fuel + 1, turn, base, len, copied =>
    if len = 0 then pure (0, copied)
    else do
      match ← copy_from_user base (min IOBUF_SIZE len) false with
      | none => pure (-E_INVAL, copied)
      | some data =>
        let (ret, bs) ← file_write ops (answers turn) fd data
        if bs = [] then pure (ret, copied)
        else
          check (bs.length ≤ len)
          if ret ≠ 0 then pure (ret, copied + bs.length)
          else
            writeLoop ops answers fd fuel (turn + 1) (base + BitVec.ofNat 32 bs.length)
              (len - bs.length) (copied + bs.length)

/-- `copied` becomes an `int`. -/
def result (ret : Int) (copied : Nat) : Int :=
  if copied ≠ 0 then (BitVec.ofNat 32 copied).toInt else ret

/-- `memory` says that `kmalloc` has room for the pieces. -/
def sysfile_read (ops : inode_ops ν α) (answers : Nat → α) (memory : Bool) (fd : Int)
    (base len : Word) : ProcM ν Int := do
  if len = 0#32 then pure 0
  else if !file_testfd (← get).filemap fd true false then pure (-E_INVAL)
  else if !memory then pure (-E_NO_MEM)
  else
    let (ret, copied) ← readLoop ops answers fd len.toNat 0 base len.toNat 0
    pure (result ret copied)

def sysfile_write (ops : inode_ops ν α) (answers : Nat → α) (memory : Bool) (fd : Int)
    (base len : Word) : ProcM ν Int := do
  if len = 0#32 then pure 0
  else if !file_testfd (← get).filemap fd false true then pure (-E_INVAL)
  else if !memory then pure (-E_NO_MEM)
  else
    let (ret, copied) ← writeLoop ops answers fd len.toNat 0 base len.toNat 0
    pure (result ret copied)

/-! ## What a transfer is -/

inductive Way
  | read
  | write
deriving DecidableEq

def Way.call (way : Way) (ops : inode_ops ν α) (answers : Nat → α) (memory : Bool) (fd : Int)
    (base len : Word) : ProcM ν Int :=
  match way with
  | .read => sysfile_read ops answers memory fd base len
  | .write => sysfile_write ops answers memory fd base len

/-- What every inode keeps to: no more bytes than there is room for go through, those that are
written are the first ones, and what is returned is an error, or 0, or the number of bytes. -/
structure inode_ops.Sound (ops : inode_ops ν α) : Prop where
  read : ∀ a pos len s ret bs t, ops.vop_read a pos len s = .ok (ret, bs) t →
    bs.length ≤ len ∧ (0 < ret → ret = bs.length)
  write : ∀ a pos data s ret bs t, ops.vop_write a pos data s = .ok (ret, bs) t →
    bs <+: data ∧ (0 < ret → ret = bs.length)

/-- The bytes go out of the inode, or into it, from a position on: in operations that each start
where the one before has ended. -/
inductive Way.Moves (ops : inode_ops ν α) : Way → Word → ν → List Byte → ν → Prop
  | nil {way : Way} {pos : Word} {s : ν} : Moves ops way pos s [] s
  | read {a : α} {pos : Word} {len : Nat} {s t u : ν} {ret : Int} {bs cs : List Byte}
      (h : ops.vop_read a pos len s = .ok (ret, bs) t)
      (hcs : Moves ops .read (pos + BitVec.ofNat 32 bs.length) t cs u) :
      Moves ops .read pos s (bs ++ cs) u
  | write {a : α} {pos : Word} {data : List Byte} {s t u : ν} {ret : Int} {bs cs : List Byte}
      (h : ops.vop_write a pos data s = .ok (ret, bs) t)
      (hcs : Moves ops .write (pos + BitVec.ofNat 32 bs.length) t cs u) :
      Moves ops .write pos s (bs ++ cs) u

/-- The process may access the bytes. -/
def UserRange (mm : Mm) (write : Bool) (base n : Nat) : Prop :=
  0 < n → USERBASE.toNat ≤ base ∧ base + n ≤ USERTOP.toNat ∧
    ∀ b, base ≤ b → b < base + n → ByteOk mm.mmap_list write b

/-- The bytes have gone between the file, from its position on, and the start of the memory at
`base`, and the position is behind them. -/
structure Transferred (way : Way) (ops : inode_ops ν α) (i : Fd) (base : Word) (bs : List Byte)
    (s t : Proc ν) : Prop where
  filemap : t.filemap = update s.filemap i
    { s.filemap i with pos := (s.filemap i).pos + BitVec.ofNat 32 bs.length }
  node : way.Moves ops (s.filemap i).pos s.node bs t.node
  range : UserRange s.mm (way = .read) base.toNat bs.length
  mem : match way with
    | .read => t.mem = patch s.mem base.toNat bs
    | .write => t.mem = s.mem ∧ bs = slice s.mem base.toNat bs.length

/-- The file is open. -/
structure Open (filemap : Fd → file) (fd : Int) (i : Fd) : Prop where
  testfd : filetable.testfd fd = some i
  status : (filemap i).status = .FD_OPENED
  fd : (filemap i).fd = fd
  count : 0 < (filemap i).open_count

/-- The call returns the number of the bytes that it has transferred, or an error if there are
none. -/
def Matches (way : Way) (ops : inode_ops ν α) (answers : Nat → α) (memory : Bool) (fd : Int)
    (i : Fd) (base len : Word) (s : Proc ν) : Prop :=
  Wp (way.call ops answers memory fd base len)
    (fun ret t => ∃ bs : List Byte, (bs.length : Int) = max ret 0 ∧
      Transferred way ops i base bs s t)
    (fun _ _ => True) False s

/-- What the inode gives to reads of `IOBUF_SIZE` bytes from a position on, to the end of the `len`
bytes, to the first error or to the first read that gives nothing. -/
def delivered (ops : inode_ops ν α) (answers : Nat → α) : Nat → Nat → Word → Nat → ν → List Byte
  | 0, _, _, _, _ => []
  | fuel + 1, turn, pos, len, s =>
    if len = 0 then []
    else
      match ops.vop_read (answers turn) pos (min IOBUF_SIZE len) s with
      | .ok (ret, bs) t =>
        if ret ≠ 0 ∨ bs = [] then bs
        else
          bs ++ delivered ops answers fuel (turn + 1) (pos + BitVec.ofNat 32 bs.length)
            (len - bs.length) t
      | _ => []

/-! ## The parts of a turn -/

variable {ops : inode_ops ν α} {answers : Nat → α} {fd : Int} {i : Fd} {s t : Proc ν} {mm : Mm}
  {base : Word} {X : Prop}

theorem UserRange.append {write : Bool} {b m n : Nat} (h : UserRange mm write b m)
    (h' : UserRange mm write (b + m) n) : UserRange mm write b (m + n) := by
  intro hmn
  by_cases hm : 0 < m
  · obtain ⟨hlo, hhi, hall⟩ := h hm
    by_cases hn : 0 < n
    · obtain ⟨-, hhi', hall'⟩ := h' hn
      refine ⟨hlo, by omega, fun c hc hc' => ?_⟩
      rcases Nat.lt_or_ge c (b + m) with hlt | hge
      · exact hall c hc hlt
      · exact hall' c hge (by omega)
    · obtain rfl : n = 0 := by omega
      exact ⟨hlo, hhi, hall⟩
  · obtain rfl : m = 0 := by omega
    rw [Nat.zero_add]
    exact h' (by omega)

theorem UserRange.left {write : Bool} {b m n : Nat} (h : UserRange mm write b (m + n)) :
    UserRange mm write b m := by
  intro hm
  obtain ⟨hlo, hhi, hall⟩ := h (by omega)
  exact ⟨hlo, by omega, fun c hc hc' => hall c hc (by omega)⟩

theorem UserRange.right {write : Bool} {b m n : Nat} (h : UserRange mm write b (m + n)) :
    UserRange mm write (b + m) n := by
  intro hn
  obtain ⟨hlo, hhi, hall⟩ := h (by omega)
  exact ⟨by omega, by omega, fun c hc hc' => hall c (by omega) (by omega)⟩

/-- Behind a range that the process may access no address wraps. -/
theorem UserRange.toNat_add {write : Bool} {n : Nat} (h : UserRange mm write base.toNat n) :
    (base + BitVec.ofNat 32 n).toNat = base.toNat + n := by
  have hbase := base.isLt
  have htop : USERTOP.toNat = 2 ^ 31 := rfl
  rw [BitVec.toNat_add, BitVec.toNat_ofNat]
  by_cases hn : 0 < n
  · have hhi := (h hn).2.1
    rw [Nat.mod_eq_of_lt (by omega), Nat.mod_eq_of_lt (by omega)]
  · obtain rfl : n = 0 := by omega
    rw [Nat.zero_mod, Nat.add_zero, Nat.mod_eq_of_lt hbase]

theorem wp_memCheck (hmm : ListOk s.mm) {write : Bool} {n : Nat} (hpos : 0 < n)
    (hn : n ≤ IOBUF_SIZE) :
    Wp (memCheck base n write)
      (fun ok t => ∃ mm', KeepsAreas s.mm mm' ∧ t = { s with mm := mm' } ∧
        (ok = true ↔ UserRange s.mm write base.toNat n)) (fun _ _ => False) X s := by
  obtain ⟨mm', hk, hmm', hok⟩ := user_mem_check_spec hmm base (BitVec.ofNat 32 n) write
  have hlen : (BitVec.ofNat 32 n).toNat = n := by
    unfold IOBUF_SIZE at hn
    rw [BitVec.toNat_ofNat, Nat.mod_eq_of_lt (by omega)]
  rw [hlen] at hok
  unfold memCheck
  simp only [wp_bind, wp_get, wp_modify, wp_pure]
  refine ⟨mm', hk, ?_, hok.trans ⟨fun h _ => h.2, fun h => ⟨hpos, h hpos⟩⟩⟩
  rw [hmm']
  rfl

theorem wp_copy_to_user (hmm : ListOk s.mm) {bs : List Byte} (hne : bs ≠ [])
    (hlen : bs.length ≤ IOBUF_SIZE) :
    Wp (copy_to_user base bs)
      (fun ok t => ∃ mm', KeepsAreas s.mm mm' ∧
        (ok = true ↔ UserRange s.mm true base.toNat bs.length) ∧
        t = { s with mm := mm', mem := if ok then patch s.mem base.toNat bs else s.mem })
      (fun _ _ => False) X s := by
  unfold copy_to_user
  rw [wp_bind]
  apply Wp.mono (wp_memCheck hmm (List.length_pos_iff.2 hne) hlen) _ (fun _ _ he => he) id
  rintro ok _ ⟨mm', hk, rfl, hok⟩
  rw [wp_ite]
  cases ok with
  | true => exact ⟨mm', hk, hok, rfl⟩
  | false => exact ⟨mm', hk, hok, rfl⟩

theorem wp_copy_from_user (hmm : ListOk s.mm) {n : Nat} (hpos : 0 < n) (hn : n ≤ IOBUF_SIZE) :
    Wp (copy_from_user base n false)
      (fun r t => ∃ mm', KeepsAreas s.mm mm' ∧ t = { s with mm := mm' } ∧
        ∀ data, r = some data → data = slice s.mem base.toNat n ∧
          UserRange s.mm false base.toNat n) (fun _ _ => False) X s := by
  unfold copy_from_user
  rw [wp_bind]
  apply Wp.mono (wp_memCheck hmm hpos hn) _ (fun _ _ he => he) id
  rintro ok _ ⟨mm', hk, rfl, hok⟩
  rw [wp_ite]
  cases ok with
  | true =>
    refine ⟨mm', hk, rfl, ?_⟩
    rintro data hdata
    exact ⟨(Option.some.inj hdata).symm, hok.1 rfl⟩
  | false => exact ⟨mm', hk, rfl, fun _ h => nomatch h⟩

theorem Open.fd2file {filemap : Fd → file} (h : Open filemap fd i) :
    fd2file filemap fd = some (filemap i) := by
  unfold fs.fd2file
  rw [h.testfd]
  exact if_pos ⟨h.status, h.fd⟩

/-- The operation is done at the position of the file, which goes on by what it has moved. -/
theorem wp_file_io (h : Open s.filemap fd i) {permitted : file → Bool}
    (hp : permitted (s.filemap i) = true) (op : Word → Cmd ν Int (Int × List Byte)) :
    Wp (file_io permitted op fd)
      (fun r t => op (s.filemap i).pos s.node = .ok r t.node ∧ t.mm = s.mm ∧ t.mem = s.mem ∧
        t.filemap = update s.filemap i
          { s.filemap i with pos := (s.filemap i).pos + BitVec.ofNat 32 r.2.length })
      (fun _ _ => ∀ r node, op (s.filemap i).pos s.node ≠ .ok r node) X s := by
  unfold file_io filemap_acquire
  rw [wp_bind, wp_get]
  simp only [h.testfd, h.fd2file, wp_ite]
  rw [if_pos hp, wp_bind, wp_bind, wp_get, wp_bind, wp_check, if_pos h.status]
  unfold setFile
  rw [wp_modify, wp_bind]
  cases hop : op (s.filemap i).pos s.node with
  | ok r node =>
    obtain ⟨ret, bs⟩ := r
    have hcount : (s.filemap i).open_count ≠ 0 := Nat.pos_iff_ne_zero.1 h.count
    unfold Wp onNode
    simp only [hop]
    unfold filemap_release setFile
    show Wp _ _ _ _ _
    simp only [wp_bind, wp_get, wp_check, wp_modify, wp_pure, wp_ite, update_self, update_idem,
      h.status, if_true, Nat.add_sub_cancel, hcount, if_false, wp_halt]
    rw [if_pos ⟨Or.inl trivial, Nat.succ_pos _⟩]
    exact ⟨trivial, trivial, trivial, trivial⟩
  | fail e node =>
    unfold Wp onNode
    simp only [hop]
    intro r node hn
    cases hn
  | stop =>
    unfold Wp onNode
    simp only [hop]
    intro r node hn
    cases hn

/-! ## The loops -/

theorem Open.set_pos {filemap : Fd → file} (h : Open filemap fd i) (pos : Word) :
    Open (update filemap i { filemap i with pos }) fd i := by
  refine ⟨h.testfd, ?_, ?_, ?_⟩
  · rw [update_self]
    exact h.status
  · rw [update_self]
    exact h.fd
  · rw [update_self]
    exact h.count

theorem userRange_congr {mm' : Mm} (h : KeepsAreas mm mm') {write : Bool} {b n : Nat} :
    UserRange mm' write b n ↔ UserRange mm write b n := by
  unfold UserRange
  rw [show mm'.mmap_list = mm.mmap_list by rw [h.1]]

/-- A position goes on by one part and then by another. -/
theorem set_pos_pos (filemap : Fd → file) (m n : Nat) :
    let filemap' := update filemap i { filemap i with pos := (filemap i).pos + BitVec.ofNat 32 m }
    update filemap' i { filemap' i with pos := (filemap' i).pos + BitVec.ofNat 32 n } =
      update filemap i { filemap i with pos := (filemap i).pos + BitVec.ofNat 32 (m + n) } := by
  simp only [update_self, update_idem, BitVec.ofNat_add, BitVec.add_assoc]

theorem delivered_ok (fuel : Nat) {turn len : Nat} {pos : Word} {node node' : ν} {ret : Int}
    {bs : List Byte} (hlen : len ≠ 0)
    (h : ops.vop_read (answers turn) pos (min IOBUF_SIZE len) node = .ok (ret, bs) node') :
    delivered ops answers (fuel + 1) turn pos len node =
      if ret ≠ 0 ∨ bs = [] then bs
      else
        bs ++ delivered ops answers fuel (turn + 1) (pos + BitVec.ofNat 32 bs.length)
          (len - bs.length) node' := by
  rw [delivered, if_neg hlen]
  simp only [h]

theorem delivered_never {fuel turn len : Nat} {pos : Word} {node : ν} (hlen : len ≠ 0)
    (h : ∀ r node', ops.vop_read (answers turn) pos (min IOBUF_SIZE len) node ≠ .ok r node') :
    delivered ops answers (fuel + 1) turn pos len node = [] := by
  rw [delivered, if_neg hlen]
  cases hop : ops.vop_read (answers turn) pos (min IOBUF_SIZE len) node with
  | ok r node' => exact absurd hop (h r node')
  | fail e node' => rfl
  | stop => rfl

/-- Where the loop of `sysfile_read` ends: `bs` are with the process, and `lost` were read only.
`all` is what the inode gives. -/
structure ReadTo (ops : inode_ops ν α) (i : Fd) (base : Word) (all bs lost : List Byte)
    (s t : Proc ν) : Prop where
  filemap : t.filemap = update s.filemap i
    { s.filemap i with pos := (s.filemap i).pos + BitVec.ofNat 32 (bs.length + lost.length) }
  node : Way.Moves ops .read (s.filemap i).pos s.node (bs ++ lost) t.node
  range : UserRange s.mm true base.toNat bs.length
  mem : t.mem = patch s.mem base.toNat bs
  small : lost.length ≤ IOBUF_SIZE
  refused : lost ≠ [] → ¬ UserRange s.mm true (base.toNat + bs.length) lost.length
  all : ∃ rest, all = bs ++ lost ++ rest ∧ (lost = [] → rest = [])

theorem ReadTo.nil (s : Proc ν) : ReadTo ops i base [] [] [] s s where
  filemap := by
    rw [List.length_nil, BitVec.add_zero, update_eq_self]
  node := .nil
  range h := absurd h (Nat.lt_irrefl 0)
  mem := (patch_nil _ _).symm
  small := Nat.zero_le _
  refused h := absurd rfl h
  all := ⟨[], rfl, fun _ => rfl⟩

/-- A piece that has gone to the process, and then the rest. -/
theorem ReadTo.cons {all bs cs lost : List Byte} {u : Proc ν} {a : α} {len : Nat} {ret : Int}
    (hop : ops.vop_read a (s.filemap i).pos len s.node = .ok (ret, cs) t.node)
    (hfile : t.filemap = update s.filemap i
      { s.filemap i with pos := (s.filemap i).pos + BitVec.ofNat 32 cs.length })
    (hrange : UserRange s.mm true base.toNat cs.length) (hmem : t.mem = patch s.mem base.toNat cs)
    (hk : KeepsAreas s.mm t.mm)
    (h : ReadTo ops i (base + BitVec.ofNat 32 cs.length) all bs lost t u) :
    ReadTo ops i base (cs ++ all) (cs ++ bs) lost s u := by
  have hbase := hrange.toNat_add
  have hpos : (t.filemap i).pos = (s.filemap i).pos + BitVec.ofNat 32 cs.length := by
    rw [hfile, update_self]
  obtain ⟨rest, hall, hrest⟩ := h.all
  refine ⟨?_, ?_, ?_, ?_, h.small, ?_, rest, ?_, hrest⟩
  · rw [h.filemap, hfile, set_pos_pos, List.length_append, Nat.add_assoc]
  · rw [List.append_assoc]
    exact .read hop (hpos ▸ h.node)
  · rw [List.length_append]
    refine hrange.append ?_
    rw [← hbase, ← userRange_congr hk]
    exact h.range
  · rw [h.mem, hmem, hbase, patch_patch]
  · intro hl
    rw [List.length_append, ← Nat.add_assoc, ← hbase, ← userRange_congr hk]
    exact h.refused hl
  · rw [hall, List.append_assoc, List.append_assoc, List.append_assoc]

theorem wp_readLoop (hs : ops.Sound) {fuel turn len : Nat} (copied : Nat)
    (hopen : Open s.filemap fd i) (hr : (s.filemap i).readable = true) (hmm : ListOk s.mm)
    (hfuel : len ≤ fuel) :
    Wp (readLoop ops answers fd fuel turn base len copied)
      (fun r t => ∃ bs lost, r.2 = copied + bs.length ∧
        (0 < r.1 → bs ≠ [] ∨ r.1 = lost.length) ∧
        ReadTo ops i base (delivered ops answers fuel turn (s.filemap i).pos len s.node) bs lost s
          t)
      (fun _ _ => UserRange s.mm true base.toNat
        (delivered ops answers fuel turn (s.filemap i).pos len s.node).length) False s := by
  induction fuel generalizing turn base len copied s with
  | zero =>
    unfold readLoop
    rw [wp_bind, wp_check, if_pos (by omega)]
    exact ⟨[], [], rfl, fun h => absurd h (lt_irrefl _), ReadTo.nil s⟩
  | succ fuel ih =>
    unfold readLoop
    rw [wp_ite]
    by_cases hlen : len = 0
    · have hnone : delivered ops answers (fuel + 1) turn (s.filemap i).pos len s.node = [] := by
        unfold delivered
        rw [if_pos hlen]
      rw [if_pos hlen, hnone]
      exact ⟨[], [], rfl, fun h => absurd h (lt_irrefl _), ReadTo.nil s⟩
    · rw [if_neg hlen, wp_bind]
      apply Wp.mono (wp_file_io hopen hr _) _ _ id
      · rintro ⟨ret, cs⟩ t ⟨hop, hmmt, hmemt, hfile⟩
        obtain ⟨hcs, hret⟩ := hs.read _ _ _ _ _ _ _ hop
        have hsmall : cs.length ≤ IOBUF_SIZE := Nat.le_trans hcs (Nat.min_le_left _ _)
        have hle : cs.length ≤ len := Nat.le_trans hcs (Nat.min_le_right _ _)
        have hdel := delivered_ok fuel hlen hop
        have hmove : Way.Moves ops .read (s.filemap i).pos s.node ([] ++ cs) t.node := by
          rw [List.nil_append, ← List.append_nil cs]
          exact .read hop .nil
        simp only at hfile ⊢
        rw [wp_ite]
        by_cases hcs0 : cs = []
        · rw [if_pos hcs0, hdel, if_pos (Or.inr hcs0)]
          subst hcs0
          refine ⟨[], [], rfl, fun h => Or.inr (hret h), hfile, hmove, ?_, ?_, Nat.zero_le _,
            fun h => absurd rfl h, [], rfl, fun _ => rfl⟩
          · exact fun h => absurd h (Nat.lt_irrefl 0)
          · rw [hmemt, patch_nil]
        · have hmmt' : ListOk t.mm := by
            rw [hmmt]
            exact hmm
          rw [if_neg hcs0, wp_bind]
          apply Wp.mono (wp_copy_to_user hmmt' hcs0 hsmall) _ (fun _ _ he => he.elim) id
          rintro ok u ⟨mm', hk, hok, rfl⟩
          rw [hmmt] at hk hok
          rw [wp_ite]
          cases ok with
          | false =>
            rw [if_neg Bool.false_ne_true, wp_pure, hdel]
            refine ⟨[], cs, rfl, ?_, ?_, hmove, ?_, ?_, hsmall, fun _ hn => ?_, ?_⟩
            · intro h
              simp only at h ⊢
              split at h
              · exact absurd h (by decide)
              · rename_i hne
                rw [if_neg hne]
                exact Or.inr (hret h)
            · rw [List.length_nil, Nat.zero_add]
              exact hfile
            · exact fun h => absurd h (Nat.lt_irrefl 0)
            · rw [patch_nil]
              exact hmemt
            · exact absurd (hok.2 hn) Bool.false_ne_true
            · split
              · exact ⟨[], by simp, fun _ => rfl⟩
              · exact ⟨_, rfl, fun h => absurd h hcs0⟩
          | true =>
            have hrange := hok.1 rfl
            rw [if_pos rfl, wp_bind, wp_check, if_pos hle, wp_ite, hdel]
            by_cases hret0 : ret ≠ 0
            · rw [if_pos hret0, if_pos (Or.inl hret0), wp_pure]
              have hto := ReadTo.cons (u := { t with mm := mm', mem := patch t.mem base.toNat cs })
                (t := { t with mm := mm', mem := patch t.mem base.toNat cs }) hop hfile hrange
                (by rw [hmemt]) hk (ReadTo.nil _)
              rw [List.append_nil] at hto
              exact ⟨cs, [], rfl, fun _ => Or.inl hcs0, hto⟩
            · have hnot : ¬ (ret ≠ 0 ∨ cs = []) := not_or.2 ⟨hret0, hcs0⟩
              have hpos : (t.filemap i).pos =
                  (s.filemap i).pos + BitVec.ofNat 32 cs.length := by
                rw [hfile, update_self]
              have hpos0 := List.length_pos_iff.2 hcs0
              rw [if_neg hret0, if_neg hnot, ← hpos]
              have hrt : (t.filemap i).readable = true := by
                rw [hfile, update_self]
                exact hr
              have hrest : Wp (readLoop ops answers fd fuel (turn + 1)
                  (base + BitVec.ofNat 32 cs.length) (len - cs.length) (copied + cs.length)) _ _
                  False { t with mm := mm', mem := patch t.mem base.toNat cs } :=
                ih _ (hfile ▸ hopen.set_pos _) hrt hk.2 (by omega)
              apply Wp.mono hrest _ _ id
              · rintro r u ⟨bs, lost, hcount, hr1, hto⟩
                refine ⟨cs ++ bs, lost, ?_, ?_, ?_⟩
                · rw [hcount, List.length_append, Nat.add_assoc]
                · intro _
                  exact Or.inl fun hn => hcs0 (List.append_eq_nil_iff.1 hn).1
                · exact ReadTo.cons
                    (t := { t with mm := mm', mem := patch t.mem base.toNat cs }) hop hfile hrange
                    (by rw [hmemt]) hk hto
              · intro _ u hu
                rw [List.length_append]
                refine hrange.append ?_
                rw [← hrange.toNat_add, ← userRange_congr hk]
                exact hu
      · intro _ t hnever
        rw [delivered_never hlen hnever]
        exact fun h => absurd h (Nat.lt_irrefl 0)

theorem Transferred.nil (way : Way) (hmem : s.mem = t.mem) (hnode : s.node = t.node)
    (hfile : s.filemap = t.filemap) : Transferred way ops i base [] s t where
  filemap := by
    rw [List.length_nil, BitVec.add_zero, update_eq_self, hfile]
  node := by
    rw [hnode]
    exact .nil
  range h := absurd h (Nat.lt_irrefl 0)
  mem := by
    cases way with
    | read =>
      simp only [patch_nil]
      exact hmem.symm
    | write => exact ⟨hmem.symm, rfl⟩

/-- A piece that has gone into the inode, and then the rest. -/
theorem Transferred.cons_write {bs cs : List Byte} {u : Proc ν} {a : α} {data : List Byte}
    {ret : Int} (hop : ops.vop_write a (s.filemap i).pos data s.node = .ok (ret, cs) t.node)
    (hfile : t.filemap = update s.filemap i
      { s.filemap i with pos := (s.filemap i).pos + BitVec.ofNat 32 cs.length })
    (hrange : UserRange s.mm false base.toNat cs.length) (hmem : t.mem = s.mem)
    (hcs : cs = slice s.mem base.toNat cs.length) (hk : KeepsAreas s.mm t.mm)
    (h : Transferred .write ops i (base + BitVec.ofNat 32 cs.length) bs t u) :
    Transferred .write ops i base (cs ++ bs) s u := by
  have hbase := hrange.toNat_add
  have hpos : (t.filemap i).pos = (s.filemap i).pos + BitVec.ofNat 32 cs.length := by
    rw [hfile, update_self]
  obtain ⟨hmemu, hbs⟩ := h.mem
  refine ⟨?_, .write hop (hpos ▸ h.node), ?_, hmemu.trans hmem, ?_⟩
  · rw [h.filemap, hfile, set_pos_pos, List.length_append]
  · rw [List.length_append]
    refine hrange.append ?_
    rw [← hbase, ← userRange_congr hk]
    exact h.range
  · rw [List.length_append, slice_append, ← hcs, ← hbase, ← hmem, ← hbs]

theorem slice_of_prefix {b : Buffer} {off n : Nat} {bs : List Byte} (h : bs <+: slice b off n) :
    bs = slice b off bs.length := by
  have hle := h.length_le
  rw [slice_length] at hle
  obtain ⟨k, rfl⟩ := Nat.exists_eq_add_of_le hle
  have htake := List.prefix_iff_eq_take.1 h
  rw [slice_append, List.take_left' (slice_length _ _ _)] at htake
  exact htake

theorem wp_writeLoop (hs : ops.Sound) {fuel turn len : Nat} (copied : Nat)
    (hopen : Open s.filemap fd i) (hw : (s.filemap i).writable = true) (hmm : ListOk s.mm)
    (hfuel : len ≤ fuel) :
    Wp (writeLoop ops answers fd fuel turn base len copied)
      (fun r t => ∃ bs, r.2 = copied + bs.length ∧ (0 < r.1 → bs ≠ []) ∧
        Transferred .write ops i base bs s t) (fun _ _ => True) False s := by
  induction fuel generalizing turn base len copied s with
  | zero =>
    unfold writeLoop
    rw [wp_bind, wp_check, if_pos (by omega)]
    exact ⟨[], rfl, fun h => absurd h (lt_irrefl _), .nil _ rfl rfl rfl⟩
  | succ fuel ih =>
    unfold writeLoop
    rw [wp_ite]
    by_cases hlen : len = 0
    · rw [if_pos hlen]
      exact ⟨[], rfl, fun h => absurd h (lt_irrefl _), .nil _ rfl rfl rfl⟩
    · have hpos : 0 < min IOBUF_SIZE len := Nat.lt_min.2 ⟨by decide, Nat.pos_of_ne_zero hlen⟩
      rw [if_neg hlen, wp_bind]
      apply Wp.mono (wp_copy_from_user hmm hpos (Nat.min_le_left _ _)) _ (fun _ _ _ => trivial) id
      rintro r _ ⟨mm', hk, rfl, hdata⟩
      cases r with
      | none =>
        have hneg : ¬ 0 < -E_INVAL := by decide
        exact ⟨[], rfl, fun h => absurd h hneg, .nil _ rfl rfl rfl⟩
      | some data =>
        obtain ⟨hdata, hall⟩ := hdata data rfl
        simp only
        rw [wp_bind]
        have hopen' : Open ({ s with mm := mm' } : Proc ν).filemap fd i := hopen
        apply Wp.mono (wp_file_io hopen' hw _) _ (fun _ _ _ => trivial) id
        rintro ⟨ret, cs⟩ t ⟨hop, hmmt, hmemt, hfile⟩
        obtain ⟨hcs, hret⟩ := hs.write _ _ _ _ _ _ _ hop
        rw [hdata] at hcs
        have hle := hcs.length_le
        rw [slice_length] at hle
        obtain ⟨k, hk'⟩ := Nat.exists_eq_add_of_le hle
        rw [hk'] at hall
        have hrange := hall.left
        have hsame := slice_of_prefix hcs
        simp only at hop hmmt hmemt hfile ⊢
        have hkt : KeepsAreas s.mm t.mm := hmmt ▸ hk
        rw [wp_ite]
        by_cases hcs0 : cs = []
        · rw [if_pos hcs0]
          have hone := Transferred.cons_write (t := t) hop hfile hrange hmemt hsame hkt
            (.nil .write rfl rfl rfl)
          rw [List.append_nil] at hone
          refine ⟨cs, ?_, fun h => ?_, hone⟩
          · rw [hcs0]
            rfl
          · have hzero := hret h
            rw [hcs0] at hzero
            exact absurd h (hzero ▸ lt_irrefl _)
        · have hle' : cs.length ≤ len := Nat.le_trans hle (Nat.min_le_right _ _)
          have hpos0 := List.length_pos_iff.2 hcs0
          rw [if_neg hcs0, wp_bind, wp_check, if_pos hle', wp_ite]
          by_cases hret0 : ret ≠ 0
          · rw [if_pos hret0]
            have hone := Transferred.cons_write (t := t) hop hfile hrange hmemt hsame hkt
              (.nil .write rfl rfl rfl)
            rw [List.append_nil] at hone
            exact ⟨cs, rfl, fun _ => hcs0, hone⟩
          · rw [if_neg hret0]
            have hwt : (t.filemap i).writable = true := by
              rw [hfile, update_self]
              exact hw
            have hrest : Wp (writeLoop ops answers fd fuel (turn + 1)
                (base + BitVec.ofNat 32 cs.length) (len - cs.length) (copied + cs.length)) _ _ False
                t := ih _ (hfile ▸ hopen.set_pos _) hwt hkt.2 (by omega)
            apply Wp.mono hrest _ (fun _ _ _ => trivial) id
            rintro r u ⟨bs, hcount, -, hto⟩
            refine ⟨cs ++ bs, ?_, ?_, .cons_write hop hfile hrange hmemt hsame hkt hto⟩
            · rw [hcount, List.length_append, Nat.add_assoc]
            · exact fun _ hn => hcs0 (List.append_eq_nil_iff.1 hn).1

/-! ## The calls -/

/-- What is returned is the number of bytes, or an error if there are none. -/
theorem result_eq {write : Bool} {ret : Int} {bs : List Byte}
    (hrange : UserRange mm write base.toNat bs.length) (hret : 0 < ret → bs ≠ []) :
    (bs.length : Int) = max (result ret bs.length) 0 := by
  unfold result
  by_cases h0 : bs.length = 0
  · have hnot : ¬ 0 < ret := fun h => hret h (List.length_eq_zero_iff.1 h0)
    rw [if_neg (not_not_intro h0), h0]
    omega
  · have htop : USERTOP.toNat = 2 ^ 31 := rfl
    have hbase : 0 < USERBASE.toNat := by decide
    obtain ⟨hlo, hhi, -⟩ := hrange (Nat.pos_of_ne_zero h0)
    have hint : (BitVec.ofNat 32 bs.length).toInt = bs.length := by
      rw [BitVec.toInt_eq_toNat_of_lt]
      · rw [BitVec.toNat_ofNat, Nat.mod_eq_of_lt (by omega)]
      · rw [BitVec.toNat_ofNat, Nat.mod_eq_of_lt (by omega)]
        omega
    rw [if_pos h0, hint]
    omega

/-- For a read, the process may write to the part of its memory that the bytes from the inode are
for. -/
def Taken (way : Way) (ops : inode_ops ν α) (answers : Nat → α) (memory : Bool) (i : Fd)
    (base len : Word) (s : Proc ν) : Prop :=
  way = .read → (s.filemap i).readable = true → memory = true →
    UserRange s.mm true base.toNat
      (delivered ops answers len.toNat 0 (s.filemap i).pos len.toNat s.node).length

/-- A call that returns meets its condition exactly where the property holds, and one that does not
return meets it. -/
theorem wp_iff {ε : Type} {c : Cmd (Proc ν) ε β} {Q : β → Proc ν → Prop} {p : Prop}
    (h : Wp c (fun a t => Q a t ↔ p) (fun _ _ => p) False s) :
    Wp c Q (fun _ _ => True) False s ↔ p := by
  unfold Wp at *
  cases hc : c s with
  | ok a t =>
    rw [hc] at h
    exact h
  | fail e t =>
    rw [hc] at h
    exact iff_of_true trivial h
  | stop =>
    rw [hc] at h
    exact h.elim

theorem Open.file_testfd (h : Open s.filemap fd i) (readable writable : Bool) :
    file_testfd s.filemap fd readable writable =
      ((!readable || (s.filemap i).readable) && (!writable || (s.filemap i).writable)) := by
  unfold sysfile.file_testfd
  rw [h.fd2file]

/-- A loop that has ended with bytes lost has moved the position by more than is returned. -/
theorem not_matches_of_lost {all bs lost : List Byte} {ret : Int}
    (h : ReadTo ops i base all bs lost s t) (hlost : lost ≠ [])
    (hret : 0 < ret → bs ≠ [] ∨ ret = lost.length) :
    ¬ ∃ cs : List Byte, (cs.length : Int) = max (result ret bs.length) 0 ∧
      Transferred .read ops i base cs s t := by
  rintro ⟨cs, hcount, ht⟩
  have hsmall := h.small
  have hpos := List.length_pos_iff.2 hlost
  have hne : (BitVec.ofNat 32 lost.length).toNat = lost.length := by
    unfold IOBUF_SIZE at hsmall
    rw [BitVec.toNat_ofNat, Nat.mod_eq_of_lt (by omega)]
  have hsum : BitVec.ofNat 32 (bs.length + lost.length) = BitVec.ofNat 32 cs.length := by
    have hfile := congrFun (h.filemap.symm.trans ht.filemap) i
    rw [update_self, update_self] at hfile
    exact (BitVec.add_right_inj _).1 (congrArg file.pos hfile)
  have hlong : cs.length ≠ bs.length := by
    intro heq
    rw [heq, BitVec.ofNat_add] at hsum
    have hzero : BitVec.ofNat 32 lost.length = 0#32 :=
      (BitVec.add_right_inj _).1 (hsum.trans (BitVec.add_zero _).symm)
    rw [hzero] at hne
    exact absurd hne (by simpa using hpos.ne)
  by_cases hbs : bs = []
  · by_cases hret0 : 0 < ret
    · rcases hret hret0 with hn | hr
      · exact hn hbs
      · have hcs : cs.length = lost.length := by
          subst hbs
          unfold result at hcount
          rw [if_neg (by simp)] at hcount
          omega
        have hrange := ht.range
        rw [hcs] at hrange
        apply h.refused hlost
        rw [hbs]
        exact hrange
    · apply hlong
      subst hbs
      unfold result at hcount
      rw [if_neg (by simp)] at hcount
      rw [List.length_nil]
      omega
  · exact hlong (Int.natCast_inj.1 (hcount.trans (result_eq h.range fun _ => hbs).symm))

/-- The position is right and no byte is lost, but where the bytes of a read are for memory that the
process may not write to. -/
theorem sysfile_io_matches (hs : ops.Sound) (way : Way) (answers : Nat → α) (memory : Bool)
    (hopen : Open s.filemap fd i) (hmm : ListOk s.mm) (base len : Word) :
    Matches way ops answers memory fd i base len s ↔ Taken way ops answers memory i base len s := by
  have hnone : ∀ {ret : Int}, ret ≤ 0 → ∃ bs : List Byte, (bs.length : Int) = max ret 0 ∧
      Transferred way ops i base bs s s := by
    intro ret hret
    exact ⟨[], by rw [List.length_nil]; omega, .nil way rfl rfl rfl⟩
  have hzero : ∀ n, UserRange s.mm true n 0 := fun n h => absurd h (Nat.lt_irrefl 0)
  unfold Matches
  apply wp_iff
  cases way with
  | read =>
    unfold Way.call sysfile_read
    simp only [wp_ite]
    by_cases hlen : len = 0#32
    · rw [if_pos hlen, wp_pure]
      refine iff_of_true (hnone (Int.le_refl 0)) ?_
      intro _ _ _
      rw [hlen]
      exact hzero _
    · rw [if_neg hlen, wp_bind, wp_get, wp_ite, hopen.file_testfd]
      by_cases hr : (s.filemap i).readable = true
      · rw [if_neg (by simp [hr]), wp_ite]
        by_cases hm : memory = true
        · rw [if_neg (by simp [hm]), wp_bind]
          apply Wp.mono (wp_readLoop hs 0 hopen hr hmm (Nat.le_refl _)) _ _ id
          · rintro ⟨ret, copied⟩ t ⟨bs, lost, hcopied, hret, hto⟩
            simp only [Nat.zero_add] at hcopied hret ⊢
            rw [wp_pure, hcopied]
            obtain ⟨rest, hall, hrest⟩ := hto.all
            by_cases hlost : lost = []
            · refine iff_of_true ⟨bs, result_eq hto.range fun h => ?_, ?_⟩ fun _ _ _ => ?_
              · rcases hret h with hn | hr
                · exact hn
                · rw [hlost] at hr
                  exact absurd h (hr ▸ lt_irrefl _)
              · subst hlost
                have hnode := hto.node
                rw [List.append_nil] at hnode
                exact ⟨hto.filemap, hnode, hto.range, hto.mem⟩
              · rw [hall, hrest hlost, hlost, List.append_nil, List.append_nil]
                exact hto.range
            · refine iff_of_false (not_matches_of_lost hto hlost hret) fun htaken => ?_
              have hrange := htaken rfl hr hm
              rw [hall, List.length_append, List.length_append] at hrange
              exact hto.refused hlost hrange.left.right
          · exact fun _ t ht _ _ _ => ht
        · rw [if_pos (by simp [hm]), wp_pure]
          exact iff_of_true (hnone (by decide)) fun _ _ h => absurd h hm
      · rw [if_pos (by simp [hr]), wp_pure]
        exact iff_of_true (hnone (by decide)) fun _ h => absurd h hr
  | write =>
    have htaken : Taken .write ops answers memory i base len s := by
      intro h
      cases h
    unfold Way.call sysfile_write
    simp only [wp_ite]
    by_cases hlen : len = 0#32
    · rw [if_pos hlen, wp_pure]
      exact iff_of_true (hnone (Int.le_refl 0)) htaken
    · rw [if_neg hlen, wp_bind, wp_get, wp_ite, hopen.file_testfd]
      by_cases hw : (s.filemap i).writable = true
      · rw [if_neg (by simp [hw]), wp_ite]
        by_cases hm : memory = true
        · rw [if_neg (by simp [hm]), wp_bind]
          apply Wp.mono (wp_writeLoop hs 0 hopen hw hmm (Nat.le_refl _)) _
            (fun _ _ _ => htaken) id
          rintro ⟨ret, copied⟩ t ⟨bs, hcopied, hret, hto⟩
          simp only [Nat.zero_add] at hcopied hret ⊢
          rw [wp_pure, hcopied]
          exact iff_of_true ⟨bs, result_eq hto.range hret, hto⟩ htaken
        · rw [if_pos (by simp [hm]), wp_pure]
          exact iff_of_true (hnone (by decide)) htaken
      · rw [if_pos (by simp [hw]), wp_pure]
        exact iff_of_true (hnone (by decide)) htaken

end

end nehcpu.kernel.sysfile
