/-!
The types of values. `ptr` and `ref` have the size of a pointer of the target; a struct is named by
its position in the table of layouts.
-/

namespace CallLowering

inductive ValueType where
  | void
  | i8
  | i16
  | i32
  | i64
  | ptr
  | ref
  | f32
  | f64
  | struct (index : Nat)
deriving DecidableEq, Repr, Inhabited

namespace ValueType

def isIntegral : ValueType → Bool
  | i8 | i16 | i32 | i64 | ptr | ref => true
  | _ => false

def isFloat : ValueType → Bool
  | f32 | f64 => true
  | _ => false

def isStruct : ValueType → Bool
  | struct _ => true
  | _ => false

-- The type of a value once it is widened to a register.
def actual : ValueType → ValueType
  | i8 | i16 => i32
  | ty => ty

def scalarSize (pointerSize : Nat) : ValueType → Option Nat
  | void => some 0
  | i8 => some 1
  | i16 => some 2
  | i32 | f32 => some 4
  | i64 | f64 => some 8
  | ptr | ref => some pointerSize
  | struct _ => none

def text : ValueType → String
  | void => "void"
  | i8 => "i8"
  | i16 => "i16"
  | i32 => "i32"
  | i64 => "i64"
  | ptr => "ptr"
  | ref => "ref"
  | f32 => "f32"
  | f64 => "f64"
  | struct index => s!"struct{index}"

end ValueType

end CallLowering
