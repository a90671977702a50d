/-! # Signal types

A type is ground, a vector or a bundle. Widths and bounds may still be left to
inference. Equality of types is decided structurally, annotations included.
-/

namespace Rtl

/-- The number of bits of a value, or of its fraction. -/
inductive Width where
  | known (bits : Nat)
  | unknown
deriving DecidableEq

namespace Width

def bits? : Width → Option Nat
  | known bits => some bits
  | unknown => none

/-- Known widths are ordered by their number of bits; an unknown one is above them all. -/
def compare : Width → Width → Ordering
  | known m, known n => Ord.compare m n
  | known _, unknown => .lt
  | unknown, known _ => .gt
  | unknown, unknown => .eq

end Width

/-- One end of an interval. -/
inductive Bound where
  | exclusive (value : Int)
  | inclusive (value : Int)
  | unknown
deriving DecidableEq

mutual

inductive Ty where
  | uint (width : Width)
  | sint (width : Width)
  | fixed (width point : Width)
  | interval (lower upper : Bound) (point : Width)
  | clock
  | analog (width : Width)
  | vector (element : Ty) (length : Nat)
  | bundle (fields : List Field)

/-- A member of a bundle. A flipped field runs against the direction of its bundle. -/
structure Field where
  name : String
  flipped : Bool
  ty : Ty

end

instance : Inhabited Ty := ⟨.clock⟩

mutual

/-- Structural equality of types, as a test. -/
def Ty.same : Ty → Ty → Bool
  | .uint v, .uint w => v == w
  | .sint v, .sint w => v == w
  | .fixed v p, .fixed w q => v == w && p == q
  | .interval a b p, .interval c d q => a == c && b == d && p == q
  | .clock, .clock => true
  | .analog v, .analog w => v == w
  | .vector s m, .vector t n => s.same t && m == n
  | .bundle fs, .bundle gs => Field.sameAll fs gs
  | _, _ => false

def Field.same : Field → Field → Bool
  | ⟨m, f, s⟩, ⟨n, g, t⟩ => m == n && f == g && s.same t

def Field.sameAll : List Field → List Field → Bool
  | [], [] => true
  | f :: fs, g :: gs => f.same g && Field.sameAll fs gs
  | _, _ => false

end

mutual

theorem Ty.same_iff : ∀ s t : Ty, s.same t = true ↔ s = t
  | .uint v, t => by cases t <;> simp [Ty.same]
  | .sint v, t => by cases t <;> simp [Ty.same]
  | .fixed v p, t => by cases t <;> simp [Ty.same]
  | .interval a b p, t => by cases t <;> simp [Ty.same, and_assoc]
  | .clock, t => by cases t <;> simp [Ty.same]
  | .analog v, t => by cases t <;> simp [Ty.same]
  | .vector s m, t => by cases t <;> simp [Ty.same, Ty.same_iff s]
  | .bundle fs, t => by cases t <;> simp [Ty.same, Field.sameAll_iff fs]

theorem Field.same_iff : ∀ f g : Field, f.same g = true ↔ f = g
  | ⟨m, f, s⟩, ⟨n, g, t⟩ => by simp [Field.same, Ty.same_iff s, and_assoc]

theorem Field.sameAll_iff : ∀ fs gs : List Field, Field.sameAll fs gs = true ↔ fs = gs
  | [], gs => by cases gs <;> simp [Field.sameAll]
  | f :: fs, gs => by cases gs <;> simp [Field.sameAll, Field.same_iff f, Field.sameAll_iff fs]

end

instance : DecidableEq Ty := fun s t => decidable_of_iff _ (Ty.same_iff s t)

instance : DecidableEq Field := fun f g => decidable_of_iff _ (Field.same_iff f g)

namespace Ty

def isAggregate : Ty → Bool
  | vector .. | bundle .. => true
  | _ => false

def isGround (ty : Ty) : Bool :=
  !ty.isAggregate

def isAnalog : Ty → Bool
  | analog _ => true
  | _ => false

/-- A vector without elements: there is nothing an access into it could denote. -/
def isEmptyVector : Ty → Bool
  | vector _ 0 => true
  | _ => false

/-- The type of a vector's elements. -/
def element? : Ty → Option Ty
  | vector element _ => some element
  | _ => none

/-- The first field of a bundle that has the given name. -/
def field? (ty : Ty) (name : String) : Option Field :=
  match ty with
  | bundle fields => fields.find? (·.name == name)
  | _ => none

/-- A bundle of fields that all run along with it. -/
def bundleOf (members : List (String × Ty)) : Ty :=
  bundle (members.map fun (name, ty) => ⟨name, false, ty⟩)

end Ty

end Rtl
