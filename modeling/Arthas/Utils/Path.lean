import Mathlib
import Arthas.Utils.String

/-!
File paths (`Utils/Path.cpp`). `canonpath` fills a buffer from its start; the buffer is
kept as the characters before `dest`, the last one first. Some arguments make it read the
byte before the buffer, which C leaves undefined.
-/

set_option autoImplicit false
set_option relaxedAutoImplicit false

namespace Arthas.Utils

open Arthas.Lib

/-- `MAX_PATH`. -/
def maxPath : Nat := 512

/-- The ways out of `canonpath` other than a path. -/
inductive PathStop where
  | null
  | readBeforeBuffer
  deriving DecidableEq

/-- The characters before `dest`, the last one first, and `rpath_limit - rpath`. -/
structure PathBuffer where
  dest : Text
  limit : Nat
  deriving DecidableEq

/-- The loop `while ((dest > rpath + 1) && (--dest)[-1] != '/');`. -/
def backToSlash : Text → Text
  | _ :: d :: before => if d = '/' then d :: before else backToSlash (d :: before)
  | dest => dest

/-- The component `..`: back to the previous component. -/
def PathBuffer.back (b : PathBuffer) : Except PathStop PathBuffer :=
  match backToSlash b.dest with
  | [] => .error .readBeforeBuffer
  | c :: before => .ok { b with dest := if c = '/' then c :: before else before }

/-- Any other component; a buffer of fixed size can be too short for it. -/
def PathBuffer.append (resolved : Bool) (part : Text) (b : PathBuffer) :
    Except PathStop PathBuffer :=
  let dest := if b.dest ≠ [] ∧ b.dest.head? ≠ some '/' then '/' :: b.dest else b.dest
  if b.limit ≤ dest.length + part.length then
    if resolved then .error .null
    else
      let more := if maxPath < part.length + 1 then part.length + 1 else maxPath
      .ok ⟨part.reverse ++ dest, b.limit + more⟩
  else .ok ⟨part.reverse ++ dest, b.limit⟩

def canonpathStep (resolved : Bool) (b : PathBuffer) (part : Text) :
    Except PathStop PathBuffer :=
  if part = ['.'] then .ok b
  else if part = ['.', '.'] then b.back
  else b.append resolved part

/-- The stretches between slashes that the loop finds with `start` and `end`. -/
def components (name : Text) : List Text := (split ['/'] name).filter (· ≠ [])

/-- `if (dest > rpath + 1 && dest[-1] == '/') --dest;` -/
def dropSlash : Text → Text
  | c :: d :: before => if c = '/' then d :: before else c :: d :: before
  | dest => dest

/-- `canonpath`, with or without a buffer of `MAX_PATH` bytes from the caller. -/
def canonpath (resolved : Bool) (name : Text) : Except PathStop Text :=
  if name = [] then .error .null
  else if name.head? ≠ some '/' ∧ ['.', '.'].isPrefixOf name then .error .null
  else do
    let start := if name.head? = some '/' then ['/'] else []
    let b ← (components name).foldlM (canonpathStep resolved) ⟨start, maxPath⟩
    return (dropSlash b.dest).reverse

/-- `pathendswith`; `none` when `canonpath` reads before the buffer. -/
def pathendswith (path1 path2 : Text) : Option Bool :=
  match canonpath true path1 with
  | .error .readBeforeBuffer => none
  | .error .null => some false
  | .ok canon =>
    if canon.length < path2.length then some false
    else
      let i := canon.length - path2.length
      if canon.head? = some '/' ∧ 0 < i ∧ path2.head? ≠ some '/' ∧ canon[i - 1]? ≠ some '/' then
        some false
      else some (canon.drop i = path2)

example : canonpath true "/a//b/./c/../d/".toList = .ok "/a/b/d".toList := by decide

example : canonpath true "a/../..".toList = .error .readBeforeBuffer := by decide

end Arthas.Utils
