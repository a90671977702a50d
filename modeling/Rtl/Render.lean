import Rtl.Circuit
import Rtl.Text.Lines
import Rtl.Text.Quoted

/-! # The text of a circuit

One statement stands on each line, indented by two blanks for each level. Blocks have no
text of their own, and references are written by their name alone.
-/

namespace Rtl

def Width.render : Width → String
  | known bits => "<" ++ toString bits ++ ">"
  | unknown => ""

/-- The position of the binary point, as it follows a width. -/
def Width.renderPoint : Width → String
  | known bits => "<<" ++ toString bits ++ ">>"
  | unknown => ""

def Bound.renderLower : Bound → String
  | exclusive value => "(" ++ toString value
  | inclusive value => "[" ++ toString value
  | unknown => "[?"

def Bound.renderUpper : Bound → String
  | exclusive value => toString value ++ ")"
  | inclusive value => toString value ++ "]"
  | unknown => "?]"

/-- The position of the binary point, as it follows an interval. -/
def Width.renderPrecision : Width → String
  | known bits => "." ++ toString bits
  | unknown => ""

mutual

def Ty.render : Ty → String
  | .uint width => "UInt" ++ width.render
  | .sint width => "SInt" ++ width.render
  | .fixed width point => "Fixed" ++ width.render ++ point.renderPoint
  | .interval lower upper point =>
      "Interval" ++ lower.renderLower ++ ", " ++ upper.renderUpper ++ point.renderPrecision
  | .clock => "Clock"
  | .analog width => "Analog" ++ width.render
  | .vector element length => element.render ++ "[" ++ toString length ++ "]"
  | .bundle fields => "\x7b" ++ Text.commas (Field.renderAll fields) ++ "\x7d"

def Field.render : Field → String
  | ⟨name, flipped, ty⟩ => (if flipped then "flip " else "") ++ name ++ " : " ++ ty.render

def Field.renderAll : List Field → List String
  | [] => []
  | field :: fields => field.render :: Field.renderAll fields

end

def Literal.render : Literal → String
  | uint value width => "UInt" ++ width.render ++ "(" ++ toString value ++ ")"
  | sint value width => "SInt" ++ width.render ++ "(" ++ toString value ++ ")"
  | fixed value width point =>
      "Fixed" ++ width.render ++ point.renderPoint ++ "(" ++ toString value ++ ")"
  | interval value ty => ty.render ++ "(" ++ toString value ++ ")"

def PrimOp.mnemonic : PrimOp → String
  | add => "add"
  | sub => "sub"
  | mul => "mul"
  | div => "div"
  | rem => "rem"
  | lt => "lt"
  | leq => "leq"
  | gt => "gt"
  | geq => "geq"
  | eq => "eq"
  | neq => "neq"
  | pad => "pad"
  | asUInt => "asUInt"
  | asSInt => "asSInt"
  | asClock => "asClock"
  | asFixed => "asFixedPoint"
  | shl => "shl"
  | shr => "shr"
  | dshl => "dshl"
  | dshr => "dshr"
  | cvt => "cvt"
  | neg => "neg"
  | not => "not"
  | and => "and"
  | or => "or"
  | xor => "xor"
  | andr => "andr"
  | orr => "orr"
  | xorr => "xorr"
  | cat => "cat"
  | bits => "bits"
  | head => "head"
  | tail => "tail"
  | clip => "clip"

mutual

def Expr.render : Expr → String
  | .ref r => r.name
  | .subField base field _ => base.render ++ "." ++ field
  | .subIndex base index _ => base.render ++ "[" ++ toString index ++ "]"
  | .subAccess base index _ => base.render ++ "[" ++ index.render ++ "]"
  | .literal value => value.render
  | .prim op args consts _ =>
      op.mnemonic ++ "(" ++ Text.commas (Expr.renderAll args ++ consts.map toString) ++ ")"
  | .mux cond tval fval _ => "mux(" ++ Text.commas [cond.render, tval.render, fval.render] ++ ")"
  | .validIf cond value _ => "validif(" ++ Text.commas [cond.render, value.render] ++ ")"
  | .placeholder ty => "$dontcare<" ++ ty.render ++ ">"

def Expr.renderAll : List Expr → List String
  | [] => []
  | e :: es => e.render :: Expr.renderAll es

end

theorem Expr.renderAll_eq (es : List Expr) : Expr.renderAll es = es.map Expr.render := by
  induction es with
  | nil => rfl
  | cons e es ih => simp [Expr.renderAll, ih]

def Reset.render (reset : Reset) : String :=
  " with : (reset => (" ++ Text.commas [reset.signal.render, reset.init.render] ++ "))"

/-- A line of text at the given depth. -/
def Text.line (depth : Nat) (text : String) : String :=
  Text.indent depth ++ text ++ "\n"

mutual

def Stmt.renderAt (depth : Nat) : Stmt → String
  | .connect sink source => Text.line depth (sink.render ++ " <= " ++ source.render)
  | .invalidate target => Text.line depth (target.render ++ " is invalid")
  | .attach members =>
      Text.line depth ("attach(" ++ Text.commas (members.map Expr.render) ++ ")")
  | .wire name ty => Text.line depth ("wire " ++ name ++ " : " ++ ty.render)
  | .node name value => Text.line depth ("node " ++ name ++ " = " ++ value.render)
  | .register name ty clock reset =>
      Text.line depth ("reg " ++ name ++ " : " ++ ty.render ++ ", " ++ clock.render ++
        (reset.map Reset.render).getD "")
  | .print clock enable format args =>
      Text.line depth ("printf(" ++ Text.commas
        (clock.render :: enable.render :: Text.quote format :: args.map Expr.render) ++ ")")
  | .block body => Stmt.renderAllAt depth body
  | .skip => Text.line depth "skip"

def Stmt.renderAllAt (depth : Nat) : List Stmt → String
  | [] => ""
  | s :: ss => s.renderAt depth ++ Stmt.renderAllAt depth ss

end

def Stmt.render (s : Stmt) : String :=
  s.renderAt 0

def Direction.render : Direction → String
  | input => "input"
  | output => "output"

def Port.render (port : Port) : String :=
  port.direction.render ++ " " ++ port.name ++ " : " ++ port.ty.render

/-- An empty line parts the ports from the body, if the module has both. -/
def Module.render (module : Module) : String :=
  Text.line 0 ("module " ++ module.name ++ " :") ++
    String.join (module.ports.map fun port => Text.line 1 port.render) ++
    (if module.ports.isEmpty || module.body.isEmpty then "" else "\n") ++
    Stmt.renderAllAt 1 module.body

/-- The lines of a module, one level deeper. -/
def Module.renderInside (module : Module) : String :=
  String.join ((Text.lines module.render).map (Text.line 1))

/-- Modules are parted by an empty line. -/
def Circuit.render (circuit : Circuit) : String :=
  Text.line 0 ("circuit " ++ circuit.main ++ " :") ++
    "\n".intercalate (circuit.modules.map Module.renderInside)

end Rtl
