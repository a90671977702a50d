/-! # What passes say about themselves -/

namespace Rtl

/-- A property of circuits that an earlier stage has to have established, in the order in
which the stages run. -/
inductive Prerequisite where
  | expandWhens
  | resolveKinds
  | inferTypes
  | expandConnects
deriving DecidableEq

namespace Prerequisite

def all : List Prerequisite :=
  [expandWhens, resolveKinds, inferTypes, expandConnects]

def name : Prerequisite → String
  | expandWhens => "expand-whens"
  | resolveKinds => "resolve-kinds"
  | inferTypes => "infer-types"
  | expandConnects => "expand-connects"

/-- The position of the stage that establishes the property. -/
def stage : Prerequisite → Nat
  | expandWhens => 0
  | resolveKinds => 1
  | inferTypes => 2
  | expandConnects => 3

def compare (a b : Prerequisite) : Ordering :=
  Ord.compare a.stage b.stage

def ofName? (name : String) : Option Prerequisite :=
  all.find? (·.name == name)

end Prerequisite

structure PassInfo where
  name : String
  prerequisites : List Prerequisite
  /-- Whether every established property still holds after the pass. -/
  preservesAll : Bool
deriving DecidableEq

namespace PassInfo

def requires (info : PassInfo) (prerequisite : Prerequisite) : Bool :=
  info.prerequisites.contains prerequisite

/-- The first prerequisite that is not established. -/
def missing? (info : PassInfo) (established : List Prerequisite) : Option Prerequisite :=
  info.prerequisites.find? fun prerequisite => !established.contains prerequisite

end PassInfo

end Rtl
