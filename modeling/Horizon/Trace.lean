import Horizon.Text.Blank

/-!
Tracing. A record belongs to a level, and a computation keeps the records of the levels
it was asked for, beside its value. Text that goes to one of the standard streams as it
is, such as what the engine complains of, is passed on whatever the levels are.
-/

namespace Horizon

inductive Level where
  | compile
  | invoke
  | parse
deriving DecidableEq, Repr

/-- A set of levels. -/
structure Levels where
  compile : Bool := false
  invoke : Bool := false
  parse : Bool := false
deriving DecidableEq, Repr

namespace Levels

def none : Levels := {}

def all : Levels := ⟨true, true, true⟩

def union (a b : Levels) : Levels :=
  ⟨a.compile || b.compile, a.invoke || b.invoke, a.parse || b.parse⟩

def has (levels : Levels) : Level → Bool
  | .compile => levels.compile
  | .invoke => levels.invoke
  | .parse => levels.parse

/-- The levels that a name stands for, in any mixture of capitals and small letters. -/
def named (name : Text) : Levels :=
  let name := Text.lower name
  if name = "all".toList then all
  else if name = "compile".toList then { compile := true }
  else if name = "invoke".toList then { invoke := true }
  else if name = "parse".toList then { parse := true }
  else none

/-- The levels named in a comma-separated list; unknown names stand for nothing. -/
def ofNames (names : Text) : Levels :=
  (Text.pieces ',' names).foldl (fun levels name => levels.union (named (Text.trim name))) none

end Levels

inductive Record where
  | traced (level : Level) (text : Text)
  /-- Text for the error stream. -/
  | passed (text : Text)
  /-- Text for the standard output. -/
  | printed (text : Text)
deriving DecidableEq, Repr

namespace Record

/-- Whether a record is kept when only some levels are asked for. -/
def shown (levels : Levels) : Record → Bool
  | .traced level _ => levels.has level
  | .passed _ | .printed _ => true

/-- What a record puts on the error stream. -/
def render : Record → Text
  | .traced _ text => text ++ ['\n']
  | .passed text => text
  | .printed _ => []

def renderAll (records : List Record) : Text := records.flatMap render

/-- What a record puts on the standard output. -/
def output : Record → Text
  | .traced _ _ | .passed _ => []
  | .printed text => text

def outputAll (records : List Record) : Text := records.flatMap output

end Record

/-- A value together with the records kept on the way to it. -/
structure Traced (α : Type) where
  value : α
  records : List Record := []
deriving DecidableEq

namespace Traced

instance : Monad Traced where
  pure a := ⟨a, []⟩
  bind x f := ⟨(f x.value).value, x.records ++ (f x.value).records⟩

@[simp] theorem value_pure {α : Type} (a : α) : (pure a : Traced α).value = a := rfl

@[simp] theorem records_pure {α : Type} (a : α) : (pure a : Traced α).records = [] := rfl

@[simp] theorem value_bind {α β : Type} (x : Traced α) (f : α → Traced β) :
    (x >>= f).value = (f x.value).value := rfl

@[simp] theorem records_bind {α β : Type} (x : Traced α) (f : α → Traced β) :
    (x >>= f).records = x.records ++ (f x.value).records := rfl

/-- Keeps a record if its level is asked for. -/
def note (levels : Levels) (level : Level) (text : Text) : Traced Unit :=
  ⟨(), if levels.has level then [.traced level text] else []⟩

end Traced
end Horizon
