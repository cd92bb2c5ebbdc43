-- `vprintfmt` of `printfmt.c`: a format string, its arguments and the characters that it prints.
import Nehcpu.Kernel.Thumips

namespace nehcpu.kernel.printfmt

open cpu thumips

abbrev Byte := BitVec 8

/-- The characters of a text. -/
def text (s : String) : List Byte := s.toList.map fun c => BitVec.ofNat 8 c.toNat

/-- A result of an operation on `int`. -/
def wrap (n : Int) : Int := n.bmod (2 ^ 32)

/-! ## Arguments -/

/-- What the callers hand over: an `int`, a `long`, a pointer or the unsigned ones, a `long long`,
or a string. -/
inductive Arg
  | word (v : Word)
  | longlong (v : BitVec 64)
  | string (p : Option (List Byte))

/-- The next argument and the rest. An argument of another kind is undefined behaviour. -/
def va_arg_int : List Arg → Option (Word × List Arg)
  | .word v :: ap => some (v, ap)
  | _ => none

def va_arg_longlong : List Arg → Option (BitVec 64 × List Arg)
  | .longlong v :: ap => some (v, ap)
  | _ => none

def va_arg_string : List Arg → Option (Option (List Byte) × List Arg)
  | .string p :: ap => some (p, ap)
  | _ => none

def getuint (ap : List Arg) (lflag : Nat) : Option (BitVec 64 × List Arg) :=
  if lflag ≥ 2 then va_arg_longlong ap
  else (va_arg_int ap).map fun (v, ap) => (v.setWidth 64, ap)

def getint (ap : List Arg) (lflag : Nat) : Option (BitVec 64 × List Arg) :=
  if lflag ≥ 2 then va_arg_longlong ap
  else (va_arg_int ap).map fun (v, ap) => (v.signExtend 64, ap)

/-! ## Numbers -/

/-- `"0123456789abcdef"[mod]` -/
def digit (mod : Word) : Byte :=
  if mod.toNat < 10 then BitVec.ofNat 8 (48 + mod.toNat) else BitVec.ofNat 8 (87 + mod.toNat)

/-- `while (-- width > 0)` -/
def pads (width : Int) (padc : Byte) : List Byte := List.replicate (wrap (width - 1)).toNat padc

/-- What `printnum` prints, within some levels of its recursion. -/
def printnum (base : Word) (padc : Byte) : Nat → Word → Int → Option (List Byte)
  | 0, _, _ => none
  | levels + 1, num, width =>
    let (result, mod) :=
      if base = 10#32 then
        let t := divu10 num
        (t, num - mulu10 t)
      else if base = 8#32 then (num >>> 3, num &&& 7#32)
      else (num >>> 4, num &&& 15#32)
    if num ≥ base then
      (printnum base padc levels result (wrap (width - 1))).map fun out => out ++ [digit mod]
    else some (pads width padc ++ [digit mod])

/-- The levels that a word takes at most. -/
abbrev LEVELS : Nat := 32

/-! ## Texts -/

/-- `MAXERROR + 1` texts, with no text where there is none. -/
def error_string (err : Nat) : Option (List Byte) :=
  match err with
  | 1 => some (text "unspecified error")
  | 2 => some (text "bad process")
  | 3 => some (text "invalid parameter")
  | 4 => some (text "out of memory")
  | 5 => some (text "out of processes")
  | 6 => some (text "segmentation fault")
  | 8 => some (text "invalid elf file")
  | 9 => some (text "process is killed")
  | 10 => some (text "panic failure")
  | 13 => some (text "no such device")
  | 14 => some (text "device not available")
  | 15 => some (text "device/file is busy")
  | 16 => some (text "no such file or directory")
  | 17 => some (text "is a directory")
  | 18 => some (text "not a directory")
  | 19 => some (text "cross device link")
  | 20 => some (text "unimplemented feature")
  | 21 => some (text "illegal seek")
  | 22 => some (text "too many files are open")
  | 23 => some (text "file or directory already exists")
  | 24 => some (text "directory is not empty")
  | _ => none

/-- A string with its width and its precision. -/
def printstr (padc : Byte) (width precision : Int) (altflag : Bool) (p : List Byte) : List Byte :=
  let shown := if precision < 0 then p else p.take precision.toNat
  let left := if width > 0 ∧ padc ≠ 45#8 then wrap (width - shown.length) else 0
  let width := if width > 0 ∧ padc ≠ 45#8 then min left 0 else width
  List.replicate left.toNat padc ++
    shown.map (fun ch => if altflag ∧ (ch < 32#8 ∨ 126#8 < ch) then 63#8 else ch) ++
    List.replicate (wrap (width - shown.length)).toNat 32#8

/-! ## Directives -/

/-- What the flags of a directive say. -/
structure Spec where
  padc : Byte
  width : Int
  precision : Int
  lflag : Nat
  altflag : Bool

def Spec.start : Spec := ⟨32#8, -1, -1, 0, false⟩

def Spec.process_precision (st : Spec) (precision : Int) : Spec :=
  if st.width < 0 then { st with width := precision, precision := -1 }
  else { st with precision }

/-- The loop of the width field. -/
def readWidth (precision : Int) : List Byte → Int × List Byte
  | [] => (precision, [])
  | ch :: fmt =>
    if ch < 48#8 ∨ 57#8 < ch then (precision, ch :: fmt)
    else readWidth (wrap (precision * 10 + (ch.toNat - 48))) fmt

/-- From `reswitch` on up to the character of the conversion, for a number of flags at most: the
flags, that character, or none at the end of the string, and what follows. -/
def reswitch : Nat → Spec → List Byte → List Arg →
    Option (Spec × Option Byte × List Byte × List Arg)
  | 0, _, _, _ => none
  | _ + 1, st, [], ap => some (st, none, [], ap)
  | flags + 1, st, ch :: fmt, ap =>
    if ch = 45#8 ∨ ch = 48#8 then reswitch flags { st with padc := ch } fmt ap
    else if 49#8 ≤ ch ∧ ch ≤ 57#8 then
      let (precision, fmt) := readWidth (ch.toNat - 48) fmt
      reswitch flags (st.process_precision precision) fmt ap
    else if ch = 42#8 then
      match va_arg_int ap with
      | none => none
      | some (v, ap) => reswitch flags (st.process_precision v.toInt) fmt ap
    else if ch = 46#8 then
      reswitch flags { st with width := if st.width < 0 then 0 else st.width } fmt ap
    else if ch = 35#8 then reswitch flags { st with altflag := true } fmt ap
    else if ch = 108#8 then reswitch flags { st with lflag := st.lflag + 1 } fmt ap
    else some (st, some ch, fmt, ap)

/-- `printnum` gets the lower word of `num`. -/
def number (st : Spec) (base : Word) (sign : List Byte) (num : BitVec 64) : Option (List Byte) :=
  (printnum base st.padc LEVELS (num.setWidth 32) st.width).map fun out => sign ++ out

/-- `%d` -/
def decimal (st : Spec) (num : BitVec 64) : Option (List Byte) :=
  if num.toInt < 0 then number st 10#32 [45#8] (-num) else number st 10#32 [] num

/-- `%e` -/
def printerr (v : Word) : Option (List Byte) :=
  let err := if v.toInt < 0 then -v else v
  if err.toInt < 0 then none
  else if err.toInt > 24 then
    (decimal Spec.start (err.signExtend 64)).map fun out => text "error " ++ out
  else
    match error_string err.toNat with
    | none => (decimal Spec.start (err.signExtend 64)).map fun out => text "error " ++ out
    | some p => some p

/-- What a directive prints and the arguments behind it, or nothing where the conversion has no such
character. -/
def conversion (st : Spec) (ch : Byte) (ap : List Arg) :
    Option (Option (List Byte × List Arg)) :=
  if ch = 99#8 then
    some ((va_arg_int ap).map fun (v, ap) => ([v.setWidth 8], ap))
  else if ch = 101#8 then
    some ((va_arg_int ap).bind fun (v, ap) => (printerr v).map fun out => (out, ap))
  else if ch = 115#8 then
    some ((va_arg_string ap).map fun (p, ap) =>
      (printstr st.padc st.width st.precision st.altflag (p.getD (text "(null)")), ap))
  else if ch = 100#8 then
    some ((getint ap st.lflag).bind fun (num, ap) => (decimal st num).map fun out => (out, ap))
  else if ch = 112#8 then
    some ((va_arg_int ap).bind fun (v, ap) =>
      (number st 16#32 [48#8, 120#8] (v.setWidth 64)).map fun out => (out, ap))
  else if ch = 120#8 then
    some ((getuint ap st.lflag).bind fun (num, ap) =>
      (number st 16#32 [] num).map fun out => (out, ap))
  else if ch = 37#8 then some (some ([37#8], ap))
  else none

/-- What `vprintfmt` prints, in a number of rounds at most. An unknown conversion is printed as it
stands. -/
def vprintfmt : Nat → List Byte → List Arg → Option (List Byte)
  | 0, _, _ => none
  | _ + 1, [], _ => some []
  | rounds + 1, ch :: fmt, ap =>
    if ch ≠ 37#8 then (vprintfmt rounds fmt ap).map fun out => ch :: out
    else
      match reswitch (fmt.length + 1) Spec.start fmt ap with
      | none => none
      | some (st, conv, rest, ap) =>
        match conv.bind fun ch => conversion st ch ap with
        | none => (vprintfmt rounds fmt ap).map fun out => 37#8 :: out
        | some none => none
        | some (some (out, ap)) => (vprintfmt rounds rest ap).map fun out' => out ++ out'

end nehcpu.kernel.printfmt
