import Rtl.Expr.Children

/-! # Statements

A block only groups its statements. Flattening splices blocks into their surroundings and
leaves out the empty statements, and nothing else.
-/

namespace Rtl

/-- When a register is reset, and to which value. -/
structure Reset where
  signal : Expr
  init : Expr
deriving DecidableEq

inductive Stmt where
  | connect (sink source : Expr)
  | invalidate (target : Expr)
  | attach (members : List Expr)
  | wire (name : String) (ty : Ty)
  | node (name : String) (value : Expr)
  | register (name : String) (ty : Ty) (clock : Expr) (reset : Option Reset)
  | print (clock enable : Expr) (format : String) (args : List Expr)
  | block (body : List Stmt)
  | skip

namespace Stmt

instance : Inhabited Stmt := ⟨.skip⟩

mutual

/-- Structural equality of statements, as a test. -/
def same : Stmt → Stmt → Bool
  | .connect d s, .connect e t => d == e && s == t
  | .invalidate d, .invalidate e => d == e
  | .attach ds, .attach es => ds == es
  | .wire m s, .wire n t => m == n && s == t
  | .node m d, .node n e => m == n && d == e
  | .register m s c q, .register n t d r => m == n && s == t && c == d && q == r
  | .print c d f as, .print e g h bs => c == e && d == g && f == h && as == bs
  | .block ss, .block ts => sameAll ss ts
  | .skip, .skip => true
  | _, _ => false

def sameAll : List Stmt → List Stmt → Bool
  | [], [] => true
  | s :: ss, t :: ts => s.same t && sameAll ss ts
  | _, _ => false

end

mutual

theorem same_iff : ∀ s t : Stmt, s.same t = true ↔ s = t
  | .connect .., t => by cases t <;> simp [same]
  | .invalidate _, t => by cases t <;> simp [same]
  | .attach _, t => by cases t <;> simp [same]
  | .wire .., t => by cases t <;> simp [same]
  | .node .., t => by cases t <;> simp [same]
  | .register .., t => by cases t <;> simp [same, and_assoc]
  | .print .., t => by cases t <;> simp [same, and_assoc]
  | .block ss, t => by cases t <;> simp [same, sameAll_iff ss]
  | .skip, t => by cases t <;> simp [same]

theorem sameAll_iff : ∀ ss ts : List Stmt, sameAll ss ts = true ↔ ss = ts
  | [], ts => by cases ts <;> simp [sameAll]
  | s :: ss, ts => by cases ts <;> simp [sameAll, same_iff s, sameAll_iff ss]

end

instance : DecidableEq Stmt := fun s t => decidable_of_iff _ (same_iff s t)

def isSkip : Stmt → Bool
  | .skip => true
  | _ => false

/-- The name of the signal that a statement declares. -/
def declaredName? : Stmt → Option String
  | .wire name _ | .node name _ | .register name _ _ _ => some name
  | _ => none

/-- The expressions that a statement holds itself, in order. -/
def exprs : Stmt → List Expr
  | .connect sink source => [sink, source]
  | .invalidate target => [target]
  | .attach members => members
  | .node _ value => [value]
  | .register _ _ clock none => [clock]
  | .register _ _ clock (some reset) => [clock, reset.signal, reset.init]
  | .print clock enable _ args => clock :: enable :: args
  | .wire .. | .block _ | .skip => []

def mapExprs (f : Expr → Expr) : Stmt → Stmt
  | .connect sink source => .connect (f sink) (f source)
  | .invalidate target => .invalidate (f target)
  | .attach members => .attach (members.map f)
  | .node name value => .node name (f value)
  | .register name ty clock reset =>
      .register name ty (f clock) (reset.map fun r => ⟨f r.signal, f r.init⟩)
  | .print clock enable format args => .print (f clock) (f enable) format (args.map f)
  | s => s

/-- Replace the expressions that a statement holds, in order, by a function with effects. -/
def mapExprsM {m : Type → Type} [Monad m] (f : Expr → m Expr) : Stmt → m Stmt
  | .connect sink source => return .connect (← f sink) (← f source)
  | .invalidate target => return .invalidate (← f target)
  | .attach members => return .attach (← members.mapM f)
  | .node name value => return .node name (← f value)
  | .register name ty clock none => return .register name ty (← f clock) none
  | .register name ty clock (some reset) =>
      return .register name ty (← f clock) (some ⟨← f reset.signal, ← f reset.init⟩)
  | .print clock enable format args =>
      return .print (← f clock) (← f enable) format (← args.mapM f)
  | s => return s

/-- The statements directly inside a statement, in order. -/
def children : Stmt → List Stmt
  | .block body => body
  | _ => []

/-- Replace the statements directly inside, in order, by a function with effects. -/
def mapChildrenM {m : Type → Type} [Monad m] (f : Stmt → m Stmt) : Stmt → m Stmt
  | .block body => return .block (← body.mapM f)
  | s => return s

mutual

/-- The statements that are neither blocks nor empty, in the order in which they stand. -/
def flatten : Stmt → List Stmt
  | .block body => flattenAll body
  | .skip => []
  | s => [s]

def flattenAll : List Stmt → List Stmt
  | [] => []
  | s :: ss => s.flatten ++ flattenAll ss

end

theorem flattenAll_eq (ss : List Stmt) : flattenAll ss = ss.flatMap flatten := by
  induction ss with
  | nil => rfl
  | cons s ss ih => simp [flattenAll, ih]

end Stmt

end Rtl
