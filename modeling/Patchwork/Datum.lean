import Patchwork.Number.Basic

/-! What state cells and props hold. Props hold scalars, which compare as the program compares them:
floats numerically, everything else by equality. State cells hold data of whatever types a program has. -/
namespace Patchwork

inductive DatumType
  | unit | bool | int | float | text
deriving DecidableEq, Inhabited

def DatumType.name : DatumType → String
  | unit => "()"
  | bool => "bool"
  | int => "i64"
  | float => "f64"
  | text => "alloc::string::String"

inductive Datum
  | unit
  | bool (b : Bool)
  | int (i : Int64)
  | float (n : Number)
  | text (s : String)
deriving DecidableEq, Inhabited

namespace Datum

def type : Datum → DatumType
  | unit => .unit
  | bool _ => .bool
  | int _ => .int
  | float _ => .float
  | text _ => .text

def same : Datum → Datum → Bool
  | float a, float b => a.same b
  | a, b => a == b

end Datum

/-- What state cells may hold: data of any types, which have names, compared in any way. -/
structure StateData where
  DataType : Type
  Datum : Type
  type : Datum → DataType
  name : DataType → String
  same : Datum → Datum → Bool
  [decidableType : DecidableEq DataType]
  [inhabited : Inhabited Datum]

namespace StateData

instance (δ : StateData) : DecidableEq δ.DataType := δ.decidableType

instance (δ : StateData) : Inhabited δ.Datum := δ.inhabited

abbrev DatumOf (δ : StateData) (type : δ.DataType) : Type := { d : δ.Datum // δ.type d = type }

@[reducible] def scalars : StateData where
  DataType := DatumType
  Datum := Patchwork.Datum
  type := Datum.type
  name := DatumType.name
  same := Datum.same

end StateData

/-- A scalar as an initial datum of its own type. -/
def Datum.initial (d : Datum) : StateData.scalars.DatumOf d.type := ⟨d, rfl⟩

/-- Programs that remember a `σ` keep this data in their state cells. -/
class HasStateData (σ : Type) (δ : outParam StateData) where

instance : HasStateData Unit .scalars where

instance {σ ρ : Type} {δ : StateData} [HasStateData σ δ] : HasStateData (σ × ρ) δ where

end Patchwork
