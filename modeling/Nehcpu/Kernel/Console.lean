-- The bytes that the console receives, on their way from the serial port through the two buffers of
-- `console.c` and `dev_stdin.c` to the readers of `stdin`.
import Nehcpu.Lib.Machine
import Nehcpu.Lib.Ring

namespace nehcpu.kernel.console

open Function nehcpu.machine nehcpu.ring

/-! ## The data -/

abbrev Byte := BitVec 8

abbrev Pid := Nat

def CONSBUFSIZE : Nat := 512

def STDIN_BUFSIZE : Nat := 2048

/-- A result of an operation on `off_t`, that is a signed word. -/
def wrap (n : Int) : Int := n.bmod (2 ^ 32)

/-- The buffers with their positions, the readers that wait, and what the readers got so far. A cell
of `stdin_buffer` has an index with a sign, as in the code. -/
structure Sys where
  cons_buf : Nat → Byte
  cons_rpos : Nat
  cons_wpos : Nat
  stdin_buffer : Int → Byte
  p_rpos : Int
  p_wpos : Int
  wait_queue : List Pid
  handed : List Byte

def init : Sys where
  cons_buf := fun _ => 0#8
  cons_rpos := 0
  cons_wpos := 0
  stdin_buffer := fun _ => 0#8
  p_rpos := 0
  p_wpos := 0
  wait_queue := []
  handed := []

/-! ## `console.c` -/

/-- The byte that comes next at the port of the board, as the handler takes it. -/
def serial_proc_data (byte : Byte) : Byte := if byte = 127#8 then 8#8 else byte

def nextPos (pos : Nat) : Nat := if pos + 1 = CONSBUFSIZE then 0 else pos + 1

/-- `cons_intr`, with the bytes that wait at the port. It goes on until there is none. -/
def cons_intr (s : Sys) : List Byte → Sys
  | [] => s
  | byte :: waiting =>
    let c := serial_proc_data byte
    cons_intr
      (if c ≠ 0#8 then
        { s with cons_buf := update s.cons_buf s.cons_wpos c, cons_wpos := nextPos s.cons_wpos }
      else s) waiting

def cons_getc (s : Sys) (waiting : List Byte) : Byte × Sys :=
  let s := cons_intr s waiting
  if s.cons_rpos ≠ s.cons_wpos then
    (s.cons_buf s.cons_rpos, { s with cons_rpos := nextPos s.cons_rpos })
  else (0#8, s)

/-! ## `dev_stdin.c` -/

/-- All readers that wait are woken. -/
def dev_stdin_write (s : Sys) (c : Byte) : Sys :=
  if c ≠ 0#8 then
    { s with
      stdin_buffer := update s.stdin_buffer (s.p_wpos.tmod STDIN_BUFSIZE) c
      p_wpos := if wrap (s.p_wpos - s.p_rpos) < STDIN_BUFSIZE then wrap (s.p_wpos + 1) else s.p_wpos
      wait_queue := [] }
  else s

/-- A reader that still wants `len` bytes has the processor. When there is no byte it waits, and
comes back for the rest. -/
def dev_stdin_read (s : Sys) (pid : Pid) : Nat → Sys
  | 0 => s
  | len + 1 =>
    if s.p_rpos < s.p_wpos then
      dev_stdin_read { s with
        handed := s.handed ++ [s.stdin_buffer (s.p_rpos.tmod STDIN_BUFSIZE)]
        p_rpos := wrap (s.p_rpos + 1) } pid len
    else { s with wait_queue := s.wait_queue ++ [pid] }

/-! ## Steps -/

def serial_int_handler (s : Sys) (waiting : List Byte) : Sys :=
  let (c, s) := cons_getc s waiting
  dev_stdin_write s c

/-- A serial interrupt with the bytes that wait at the port, a reader that goes on, and a reader that
is woken by something else. -/
inductive Event
  | serial_int_handler (waiting : List Byte)
  | dev_stdin_read (pid : Pid) (len : Nat)
  | interrupted (pid : Pid)

def Sys.step (s : Sys) : Event → Sys
  | .serial_int_handler waiting => console.serial_int_handler s waiting
  | .dev_stdin_read pid len => console.dev_stdin_read s pid len
  | .interrupted pid => { s with wait_queue := s.wait_queue.erase pid }

/-! ## What the console is for -/

/-- The account of a line without faults: what came, what a reader can have, what the readers got,
and how many bytes found the buffer full. -/
structure Line where
  received : List Byte
  unread : List Byte
  handed : List Byte
  dropped : Nat

def Line.empty : Line := ⟨[], [], [], 0⟩

def Line.push (l : Line) (c : Byte) : Line :=
  if l.unread.length < STDIN_BUFSIZE then
    { l with received := l.received ++ [c], unread := l.unread ++ [c] }
  else { l with received := l.received ++ [c], dropped := l.dropped + 1 }

def Line.next (l : Line) : Event → Line
  | .serial_int_handler waiting =>
    ((waiting.map serial_proc_data).filter (· ≠ 0#8)).foldl Line.push l
  | .dev_stdin_read _ len =>
    { l with handed := l.handed ++ l.unread.take len, unread := l.unread.drop len }
  | .interrupted _ => l

/-- The readers got what they should, the rest is there for the next one, and nobody waits for a
byte that is there. -/
def Delivers (l : Line) (s : Sys) : Prop :=
  s.handed = l.handed ∧
  (∀ pid, (dev_stdin_read s pid l.unread.length).handed = l.handed ++ l.unread) ∧
  (s.wait_queue ≠ [] → l.unread = [])

/-- The bytes that the readers got are the first ones that came, as long as none was dropped. -/
def InOrder (l : Line) (s : Sys) : Prop := l.dropped = 0 → s.handed <+: l.received

theorem Line.push_received (l : Line) (c : Byte) :
    (l.push c).handed ++ (l.push c).unread = (if l.unread.length < STDIN_BUFSIZE then
      l.handed ++ l.unread ++ [c] else l.handed ++ l.unread) ∧
    (l.push c).received = l.received ++ [c] := by
  unfold Line.push
  split
  · exact ⟨(List.append_assoc ..).symm, rfl⟩
  · exact ⟨rfl, rfl⟩

/-- Nothing is lost or out of order on the line but what is counted as dropped. -/
structure Line.Ok (l : Line) : Prop where
  whole : l.dropped = 0 → l.handed ++ l.unread = l.received
  order : (l.handed ++ l.unread).Sublist l.received

theorem Line.Ok.push {l : Line} (h : l.Ok) (c : Byte) : (l.push c).Ok := by
  obtain ⟨hsplit, hrec⟩ := l.push_received c
  by_cases hroom : l.unread.length < STDIN_BUFSIZE
  · rw [if_pos hroom] at hsplit
    have hdrop : (l.push c).dropped = l.dropped := by
      unfold Line.push
      rw [if_pos hroom]
    refine ⟨fun hd => ?_, ?_⟩
    · rw [hsplit, hrec, h.whole (hdrop ▸ hd)]
    · rw [hsplit, hrec]
      exact h.order.append (List.Sublist.refl _)
  · rw [if_neg hroom] at hsplit
    have hdrop : (l.push c).dropped = l.dropped + 1 := by
      unfold Line.push
      rw [if_neg hroom]
    refine ⟨fun hd => ?_, ?_⟩
    · rw [hdrop] at hd
      cases hd
    · rw [hsplit, hrec]
      exact h.order.trans (List.sublist_append_left _ _)

theorem Line.Ok.pushAll {l : Line} (h : l.Ok) (cs : List Byte) : (cs.foldl Line.push l).Ok := by
  induction cs generalizing l with
  | nil => exact h
  | cons c cs ih => exact ih (h.push c)

theorem Line.Ok.next {l : Line} (h : l.Ok) (e : Event) : (l.next e).Ok := by
  cases e with
  | serial_int_handler waiting => exact h.pushAll _
  | dev_stdin_read pid len =>
    have hsplit : l.handed ++ l.unread.take len ++ l.unread.drop len = l.handed ++ l.unread := by
      rw [List.append_assoc, List.take_append_drop]
    refine ⟨fun hd => ?_, ?_⟩
    · exact hsplit.trans (h.whole hd)
    · show (l.handed ++ l.unread.take len ++ l.unread.drop len).Sublist l.received
      rw [hsplit]
      exact h.order
  | interrupted pid => exact h

theorem Line.ok_of_run (es : List Event) : (es.foldl Line.next Line.empty).Ok := by
  have hempty : Line.empty.Ok := ⟨fun _ => rfl, List.Sublist.refl _⟩
  exact @invariant_of_anyRun Line Event Line.next Line.Ok (fun _ e h => h.next e) _ es hempty

/-! ## Where the code keeps up with the line -/

/-- The interrupt finds at most one byte, and it finds room for that byte in the second buffer, at a
position that can still be counted on. In a full buffer the byte has to be the one that it falls on. -/
def Clean (s : Sys) : Event → Prop
  | .serial_int_handler [] => True
  | .serial_int_handler [byte] =>
    if s.p_wpos - s.p_rpos < STDIN_BUFSIZE then s.p_wpos < 2 ^ 31 - 1
    else serial_proc_data byte = s.stdin_buffer (s.p_rpos.tmod STDIN_BUFSIZE)
  | .serial_int_handler _ => False
  | _ => True

instance (s : Sys) (e : Event) : Decidable (Clean s e) := by
  unfold Clean
  split <;> infer_instance

/-- The first buffer is empty, and the second one holds what a reader can have. -/
structure ConsoleOk (l : Line) (s : Sys) : Prop where
  cons : s.cons_rpos = s.cons_wpos
  first : 0 ≤ s.p_rpos
  last : s.p_wpos = s.p_rpos + l.unread.length
  bound : s.p_wpos < 2 ^ 31
  room : l.unread.length ≤ STDIN_BUFSIZE
  unread : contents STDIN_BUFSIZE (fun i => s.stdin_buffer i) s.p_rpos.toNat l.unread.length =
    l.unread
  handed : s.handed = l.handed
  waiting : s.wait_queue ≠ [] → l.unread = []

section

variable {l : Line} {s : Sys}

theorem init_ok : ConsoleOk Line.empty init :=
  ⟨rfl, Int.le_refl 0, rfl, by decide, Nat.zero_le _, rfl, rfl, fun h => absurd rfl h⟩

theorem wrap_eq {n : Int} (h0 : 0 ≤ n) (h : n < 2 ^ 31) : wrap n = n := by
  unfold wrap
  rw [Int.bmod_eq_of_le_mul_two]
  · omega
  · omega

theorem update_cast (cells : Int → Byte) (n : Nat) (c : Byte) :
    (fun i : Nat => update cells (n : Int) c i) = update (fun i : Nat => cells i) n c := by
  funext i
  simp only [update_apply, Int.ofNat_inj]

theorem tmod_size {n : Int} (h : 0 ≤ n) :
    n.tmod STDIN_BUFSIZE = ((n.toNat % STDIN_BUFSIZE : Nat) : Int) := by
  rw [Int.tmod_eq_emod_of_nonneg h, Int.natCast_mod, Int.toNat_of_nonneg h]

theorem ConsoleOk.write (h : ConsoleOk l s) {c : Byte} (hc : c ≠ 0#8)
    (hclean : if s.p_wpos - s.p_rpos < STDIN_BUFSIZE then s.p_wpos < 2 ^ 31 - 1
      else c = s.stdin_buffer (s.p_rpos.tmod STDIN_BUFSIZE)) :
    ConsoleOk (l.push c) (dev_stdin_write s c) := by
  have h0 := h.first
  have hl := h.last
  have hb := h.bound
  have hr := h.room
  have hdiff : s.p_wpos - s.p_rpos = l.unread.length := by omega
  have hwrap : wrap (s.p_wpos - s.p_rpos) = l.unread.length := by
    rw [hdiff]
    apply wrap_eq
    · omega
    · omega
  have hpos : s.p_wpos.toNat = s.p_rpos.toNat + l.unread.length := by omega
  unfold dev_stdin_write Line.push
  rw [if_pos hc, tmod_size (by omega), hpos, hwrap]
  rw [hdiff] at hclean
  by_cases hroom : l.unread.length < STDIN_BUFSIZE
  · have hroom' : (l.unread.length : Int) < STDIN_BUFSIZE := by omega
    rw [if_pos hroom'] at hclean
    rw [if_pos hroom, if_pos hroom', wrap_eq (by omega) (by omega)]
    refine ⟨h.cons, h0, ?_, ?_, ?_, ?_, h.handed, fun hw => absurd rfl hw⟩
    · show s.p_wpos + 1 = s.p_rpos + ((l.unread ++ [c]).length : Nat)
      rw [List.length_append, List.length_singleton]
      omega
    · show s.p_wpos + 1 < 2 ^ 31
      omega
    · show (l.unread ++ [c]).length ≤ STDIN_BUFSIZE
      rw [List.length_append, List.length_singleton]
      exact hroom
    · show contents STDIN_BUFSIZE (fun i : Nat => update s.stdin_buffer _ c i) s.p_rpos.toNat
        (l.unread ++ [c]).length = l.unread ++ [c]
      rw [update_cast, List.length_append, List.length_singleton, contents_push _ _ hroom, h.unread]
  · have hroom' : ¬ (l.unread.length : Int) < STDIN_BUFSIZE := by omega
    have hfull : l.unread.length = STDIN_BUFSIZE := by omega
    rw [if_neg hroom', tmod_size h0] at hclean
    rw [if_neg hroom, if_neg hroom', hfull, Nat.add_mod_right, hclean, update_eq_self]
    exact ⟨h.cons, h0, h.last, h.bound, h.room, h.unread, h.handed, fun hw => absurd rfl hw⟩

theorem nextPos_ne (pos : Nat) : pos ≠ nextPos pos := by
  unfold nextPos CONSBUFSIZE
  split
  · omega
  · omega

/-- The first buffer passes on one byte. -/
theorem cons_getc_one (h : s.cons_rpos = s.cons_wpos) (byte : Byte)
    (hc : serial_proc_data byte ≠ 0#8) :
    cons_getc s [byte] = (serial_proc_data byte, { s with
      cons_buf := update s.cons_buf s.cons_wpos (serial_proc_data byte)
      cons_wpos := nextPos s.cons_wpos
      cons_rpos := nextPos s.cons_wpos }) := by
  unfold cons_getc
  simp only [cons_intr, if_pos hc, h, if_pos (nextPos_ne s.cons_wpos), update_self]

theorem cons_getc_none (h : s.cons_rpos = s.cons_wpos) {waiting : List Byte}
    (hw : cons_intr s waiting = s) : cons_getc s waiting = (0#8, s) := by
  unfold cons_getc
  rw [hw]
  exact if_neg (not_not.2 h)

theorem ConsoleOk.interrupt (h : ConsoleOk l s) {waiting : List Byte}
    (hclean : Clean s (.serial_int_handler waiting)) :
    ConsoleOk (l.next (.serial_int_handler waiting)) (serial_int_handler s waiting) := by
  unfold serial_int_handler
  match waiting, hclean with
  | [], _ =>
    rw [cons_getc_none h.cons rfl]
    exact h
  | [byte], hclean =>
    by_cases hc : serial_proc_data byte = 0#8
    · have hid : cons_intr s [byte] = s := by
        simp [cons_intr, hc]
      have hnext : l.next (.serial_int_handler [byte]) = l := by
        simp [Line.next, hc]
      rw [cons_getc_none h.cons hid, hnext]
      exact h
    · rw [cons_getc_one h.cons byte hc]
      have hok : ConsoleOk l { s with
          cons_buf := update s.cons_buf s.cons_wpos (serial_proc_data byte)
          cons_wpos := nextPos s.cons_wpos
          cons_rpos := nextPos s.cons_wpos } :=
        ⟨rfl, h.first, h.last, h.bound, h.room, h.unread, h.handed, h.waiting⟩
      have hnext : l.next (.serial_int_handler [byte]) = l.push (serial_proc_data byte) := by
        simp [Line.next, hc]
      rw [hnext]
      exact hok.write hc hclean

theorem ConsoleOk.read (h : ConsoleOk l s) (pid : Pid) (len : Nat) :
    ConsoleOk (l.next (.dev_stdin_read pid len)) (dev_stdin_read s pid len) := by
  induction len generalizing l s with
  | zero => simpa [Line.next, dev_stdin_read] using h
  | succ len ih =>
    have h0 := h.first
    have hl := h.last
    have hb := h.bound
    have hu := h.unread
    unfold dev_stdin_read
    cases hlist : l.unread with
    | nil =>
      rw [hlist, List.length_nil] at hl
      have hnext : l.next (.dev_stdin_read pid (len + 1)) = l := by
        simp only [Line.next, hlist, List.take_nil, List.drop_nil, List.append_nil]
        rw [← hlist]
      rw [if_neg (by omega), hnext]
      exact ⟨h.cons, h.first, h.last, h.bound, h.room, h.unread, h.handed, fun _ => hlist⟩
    | cons c cs =>
      rw [hlist, List.length_cons] at hl hu
      rw [contents_cons, List.cons.injEq] at hu
      have hpos : (s.p_rpos + 1).toNat = s.p_rpos.toNat + 1 := by omega
      rw [if_pos (by omega), tmod_size h0, hu.1, wrap_eq (by omega) (by omega)]
      have hok : ConsoleOk { l with handed := l.handed ++ [c], unread := cs } { s with
          handed := s.handed ++ [c]
          p_rpos := s.p_rpos + 1 } := by
        refine ⟨h.cons, ?_, ?_, h.bound, ?_, ?_, ?_, ?_⟩
        · show 0 ≤ s.p_rpos + 1
          omega
        · show s.p_wpos = s.p_rpos + 1 + (cs.length : Nat)
          omega
        · have hroom := h.room
          rw [hlist, List.length_cons] at hroom
          exact Nat.le_of_succ_le hroom
        · show contents _ _ (s.p_rpos + 1).toNat cs.length = cs
          rw [hpos]
          exact hu.2
        · show s.handed ++ [c] = l.handed ++ [c]
          rw [h.handed]
        · intro hw
          have hnil := h.waiting hw
          rw [hlist] at hnil
          cases hnil
      have hnext : l.next (.dev_stdin_read pid (len + 1)) =
          Line.next { l with handed := l.handed ++ [c], unread := cs } (.dev_stdin_read pid len) := by
        simp [Line.next, hlist]
      rw [hnext]
      exact ih hok

theorem ConsoleOk.step (h : ConsoleOk l s) (e : Event) (hclean : Clean s e) :
    ConsoleOk (l.next e) (s.step e) := by
  cases e with
  | serial_int_handler waiting => exact h.interrupt hclean
  | dev_stdin_read pid len => exact h.read pid len
  | interrupted pid =>
    refine ⟨h.cons, h.first, h.last, h.bound, h.room, h.unread, h.handed, fun hw => ?_⟩
    apply h.waiting
    intro hnil
    apply hw
    show s.wait_queue.erase pid = []
    rw [hnil]
    rfl

theorem ConsoleOk.delivers (h : ConsoleOk l s) : Delivers l s := by
  refine ⟨h.handed, fun pid => ?_, h.waiting⟩
  rw [(h.read pid l.unread.length).handed]
  simp [Line.next]

end

/-- After every run whose interrupts are clean, the readers got the first bytes that came and can
have the others, but for those that found the buffer full. -/
theorem console_delivers (es : List Event) (h : StepsMeet Sys.step Clean init es) :
    Delivers (es.foldl Line.next Line.empty) (runFrom Sys.step init es) ∧
    InOrder (es.foldl Line.next Line.empty) (runFrom Sys.step init es) := by
  have hstep : ∀ l s e, ConsoleOk l s → Clean s e → ConsoleOk (l.next e) (s.step e) :=
    fun _ _ e h hc => h.step e hc
  have hok := account_of_run hstep init_ok h
  refine ⟨hok.delivers, fun hd => ?_⟩
  rw [hok.handed, ← (Line.ok_of_run es).whole hd]
  exact List.prefix_append _ _

/-- A reader waits, two bytes come one by one, one of them a deletion, and it gets them. -/
theorem console_delivers_two : Delivers ⟨[65#8, 8#8], [8#8], [65#8], 0⟩ (runFrom Sys.step init
    [.dev_stdin_read 1 2, .serial_int_handler [65#8], .serial_int_handler [127#8],
      .dev_stdin_read 1 1]) :=
  (console_delivers [.dev_stdin_read 1 2, .serial_int_handler [65#8], .serial_int_handler [127#8],
    .dev_stdin_read 1 1] (by decide +kernel)).1

/-- Of two bytes that one interrupt finds, the readers can have the first one only. -/
theorem console_keeps_back : ¬ ∀ es : List Event,
    Delivers (es.foldl Line.next Line.empty) (runFrom Sys.step init es) ∧
    InOrder (es.foldl Line.next Line.empty) (runFrom Sys.step init es) := by
  intro h
  have hread := (h [.serial_int_handler [65#8, 66#8]]).1.2.1 1
  revert hread
  decide +kernel

end nehcpu.kernel.console
