import Rtl.Build

/-! # Sample circuits -/

namespace Rtl.Sample

def uint (width : Nat) : Ty := .uint (.known width)

def sint (width : Nat) : Ty := .sint (.known width)

def analog (width : Nat) : Ty := .analog (.known width)

/-- A dynamic read of a vector without elements. -/
def dynamicRead : Module := Build.toModule "DynamicRead" do
  let idx ← Build.input "idx" (uint 2)
  let out ← Build.output "b" (uint 8)
  let w ← Build.wire "w" (.vector (uint 8) 0)
  Build.connect out (w.getAccess idx)

def attach : Module := Build.toModule "Attach" do
  let a ← Build.input "a" (analog 1)
  let b ← Build.input "b" (analog 1)
  let v ← Build.wire "v" (.vector (analog 1) 0)
  Build.attach [a, b, v.getIndex 0]

/-- An attachment of which no member exists. -/
def degenerateAttach : Module := Build.toModule "DegenerateAttach" do
  let v ← Build.wire "v" (.vector (analog 1) 0)
  let u ← Build.wire "u" (.vector (analog 1) 0)
  Build.attach [v.getIndex 0, u.getIndex 0]

/-- A node that only reinterprets a port. -/
def castNode : Module := Build.toModule "CastNode" do
  let x ← Build.input "x" (sint 8)
  let out ← Build.output "out" (uint 8)
  let raw ← Build.output "raw" (sint 8)
  let n ← Build.node "n" (.apply .asUInt [x] (uint 8))
  Build.connect out n
  Build.connect raw x

/-- A wire that cannot be inlined, for its value is logic. -/
def muxWire : Module := Build.toModule "MuxWire" do
  let p ← Build.input "p" (uint 1)
  let x ← Build.input "x" (uint 8)
  let y ← Build.input "y" (uint 8)
  let out ← Build.output "out" (uint 9)
  let n ← Build.wire "n" (uint 8)
  Build.connect n (.select p x y)
  let m ← Build.node "m" (.apply .add [n, .uintLit 1 8] (uint 9))
  Build.connect out m

def queue : Module := Build.toModule "Queue" do
  let clk ← Build.input "clk" .clock
  let i ← Build.input "i" (uint 1)
  let out ← Build.output "out" (uint 4)
  let element := Ty.bundleOf [("data", uint 4), ("valid", uint 1)]
  let slots ← Build.wire "slots" (.vector element 0)
  let bits ← Build.node "bits" (.apply .asUInt [(slots.getAccess i).getField "data"] (uint 4))
  let r ← Build.register "r" (uint 4) clk
  Build.connect r bits
  Build.connect out r

/-- A chain of a node and a wire that are both inlined. -/
def top : Module := Build.toModule "Top" do
  let hi ← Build.input "hi" (uint 4)
  let lo ← Build.input "lo" (uint 4)
  let out ← Build.output "out" (sint 9)
  let both ← Build.node "both" (.apply .cat [hi, lo] (uint 8))
  let w ← Build.wire "w" (sint 9)
  Build.connect w (.apply .cvt [both] (sint 9))
  Build.connect out w

/-- The circuit of a single module. -/
def single (module : Module) : Circuit := { main := module.name, modules := [module] }

def multiModule : Circuit := { main := "Top", modules := [top, queue] }

/-- All samples by name. -/
def all : List (String × Circuit) :=
  [("dynamic-read", single dynamicRead),
   ("attach", single attach),
   ("degenerate-attach", single degenerateAttach),
   ("cast-node", single castNode),
   ("mux-wire", single muxWire),
   ("multi-module", multiModule)]

def names : List String := all.map Prod.fst

def find? (name : String) : Option Circuit := all.lookup name

end Rtl.Sample
