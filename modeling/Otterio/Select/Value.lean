import Otterio.Lib.Go

/-!
# Values of a select expression

`pkg/s3select/sql/value.go`. A value holds a Go value of one of a few types. A value from a CSV record has
no type yet: it is a byte slice until a use infers a type for it.

Texts are sequences of Unicode characters. The bytes of an untyped value are the UTF-8 form of such a
text. The numbers of type `float64` are those of a type `F`.
-/

namespace Otterio.Select

inductive Value (F : Type) where
  | null
  | bool (b : Bool)
  | string (s : List Char)
  | int (i : Int)
  | float (f : F)
  | timestamp (t : Time)
  | bytes (b : List Char)
  | array (vs : List (Value F))

namespace Value

variable {F : Type}

def toString? : Value F → Option (List Char)
  | string s => some s
  | _ => none

def toBytes : Value F → Option (List Char)
  | bytes b => some b
  | _ => none

def inferTypeAsString (v : Value F) : Value F :=
  match v.toBytes with
  | none => v
  | some b => string b

def IsText (t : List Char) (v : Value F) : Prop := v = string t ∨ v = bytes t

theorem IsText.toString?_infer {t : List Char} {v : Value F} (h : IsText t v) :
    v.inferTypeAsString.toString? = some t := by
  rcases h with rfl | rfl <;> rfl

end Value

end Otterio.Select
