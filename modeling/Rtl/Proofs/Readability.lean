import Mathlib.Data.Int.CharZero
import Rtl.Proofs.TypeText
import Rtl.Proofs.Walk

/-! # Texts that can be read back

The text of an expression tells the expression, but for the annotations that are not written. How
the text ends tells what form the expression has: the parts that it falls into are the texts of the
operands, and numbers are told from operands by their first digit. So names need not be kept from
being like the words of the text.
-/

namespace Rtl

open Text

/-! ## First characters -/

/-- Whether the text starts with such a character. -/
def Text.startsWith (p : Char → Bool) (text : String) : Bool :=
  text.toList.head?.any p

/-- Whether the text starts with something other than a digit. -/
def Text.startsNoNumber (text : String) : Bool :=
  startsWith (fun c => !c.isDigit) text

namespace Text

theorem startsWith_append {p : Char → Bool} {text : String} (htext : startsWith p text = true)
    (more : String) : startsWith p (text ++ more) = true := by
  rw [startsWith, String.toList_append, List.head?_append]
  cases hhead : text.toList.head? <;> simp_all [startsWith]

theorem startsWith_imp {p q : Char → Bool} {text : String} (hpq : ∀ c, p c = true → q c = true)
    (htext : startsWith p text = true) : startsWith q text = true := by
  rw [startsWith] at htext ⊢
  cases hhead : text.toList.head? <;> simp_all

theorem startsNoNumber_of_isIdentifier {name : String} (hname : isIdentifier name = true) :
    startsNoNumber name = true := by
  obtain ⟨c, cs, hchars, hfirst, -⟩ := exists_of_isIdentifier hname
  have hdigit : c.isDigit = false := by
    rcases hfirst with hletter | rfl
    · exact isDigit_eq_false_of_isLetter hletter
    · rfl
  simp [startsNoNumber, startsWith, hchars, hdigit]

theorem startsNoNumber_toString (n : Nat) : startsNoNumber (toString n) = false := by
  rw [startsNoNumber, startsWith]
  cases hhead : (toString n).toList.head? with
  | none => rfl
  | some c => simp [isDigit_of_mem_toString (List.mem_of_head? hhead)]

theorem ne_empty_of_startsNoNumber {text : String} (htext : startsNoNumber text = true) :
    text ≠ "" := by
  intro hempty
  simp [hempty, startsNoNumber, startsWith] at htext

end Text

/-! ## Expressions and what is written of them -/

def Ty.isInterval : Ty → Bool
  | interval .. => true
  | _ => false

/-- An interval literal has an interval type. -/
def Literal.isFitting : Literal → Bool
  | interval _ ty => ty.isInterval
  | uint .. | sint .. | fixed .. => true

/-- What is written of a literal besides its type. -/
def Literal.number : Literal → Int
  | uint value _ => value
  | sint value _ | fixed value _ _ | interval value _ => value

namespace Literal

theorem render_eq (value : Literal) :
    value.render = value.ty.render ++ "(" ++ toString value.number ++ ")" := by
  cases value <;> simp [render, ty, number, Ty.render, Int.repr_eq_if]

theorem isNamed_ty {value : Literal} (hfitting : value.isFitting = true) :
    value.ty.isNamed = true := by
  cases value with
  | interval value ty => cases ty <;> simp_all [isFitting, Literal.ty, Ty.isInterval, Ty.isNamed]
  | _ => simp [ty, Ty.isNamed]

theorem startsWith_isUpper {value : Literal} (hfitting : value.isFitting = true) :
    startsWith Char.isUpper value.ty.render = true := by
  cases value with
  | interval value ty =>
      cases ty <;> simp_all [isFitting, Literal.ty, Ty.isInterval, Ty.render, startsWith]
  | _ => simp [ty, Ty.render, startsWith]

theorem eq_of_ty_eq {v w : Literal} (hv : v.isFitting = true) (hw : w.isFitting = true)
    (hty : v.ty = w.ty) (hnumber : v.number = w.number) : v = w := by
  cases v <;> cases w <;> simp_all [ty, number, isFitting] <;> subst hty <;>
    simp_all [Ty.isInterval]

end Literal

theorem PrimOp.mnemonic_injective : Function.Injective PrimOp.mnemonic := by
  intro o p heq
  cases o <;> cases p <;> first | rfl | simp [mnemonic] at heq

namespace Expr

/-- The names in the expression, those in its operands apart, are identifiers. -/
def isNamedAlone : Expr → Bool
  | .ref r => isIdentifier r.name
  | .subField _ field _ => isIdentifier field
  | .literal value => value.isFitting
  | .placeholder ty => ty.isNamed
  | .subIndex .. | .subAccess .. | .prim .. | .mux .. | .validIf .. => true

/-- The names that are written are identifiers, and interval literals have an interval type. -/
def isNamed (e : Expr) : Bool :=
  e.nodes.all isNamedAlone

/-- Forget the annotations that are not written. -/
def forget : Expr → Expr
  | .ref r => .ref ⟨r.name, .clock, .port, .read⟩
  | .subField base field _ => .subField base field .clock
  | .subIndex base index _ => .subIndex base index .clock
  | .subAccess base index _ => .subAccess base index .clock
  | .literal value => .literal value
  | .prim op args consts _ => .prim op args consts .clock
  | .mux cond tval fval _ => .mux cond tval fval .clock
  | .validIf cond value _ => .validIf cond value .clock
  | .placeholder ty => .placeholder ty

/-- The expression without the annotations that are not written. -/
def bare (e : Expr) : Expr :=
  e.bottomUp forget

/-- How the text of an expression is laid out. -/
def layout : Expr → Layout
  | .ref r => .plain r.name
  | .subField base field _ => .member base.render field
  | .subIndex base index _ => .group base.render '[' [toString index] ']'
  | .subAccess base index _ => .group base.render '[' [index.render] ']'
  | .literal value => .group value.ty.render '(' [toString value.number] ')'
  | .prim op args consts _ =>
      .group op.mnemonic '(' (args.map render ++ consts.map toString) ')'
  | .mux cond tval fval _ => .group "mux" '(' [cond.render, tval.render, fval.render] ')'
  | .validIf cond value _ => .group "validif" '(' [cond.render, value.render] ')'
  | .placeholder ty => .plain ("$dontcare<" ++ ty.render ++ ">")

theorem chars_layout (e : Expr) : e.layout.chars = e.render.toList := by
  cases e with
  | literal value => simp [layout, Layout.chars, render, Literal.render_eq, commas]
  | prim => simp [layout, Layout.chars, render, renderAll_eq]
  | _ => simp [layout, Layout.chars, render, commas]

theorem isNamedAlone_of_isNamed {e : Expr} (hnamed : e.isNamed = true) :
    e.isNamedAlone = true :=
  List.all_eq_true.mp hnamed e (mem_nodes_self e)

theorem isNamed_of_mem_children {d e : Expr} (hmem : d ∈ e.children) (hnamed : e.isNamed = true) :
    d.isNamed = true :=
  List.all_eq_true.mpr fun c hc =>
    List.all_eq_true.mp hnamed c (mem_nodes_of_mem_children hmem hc)

theorem startsNoNumber_render {e : Expr} (hnamed : e.isNamed = true) :
    startsNoNumber e.render = true := by
  induction e using induction with
  | step e ih =>
    have halone := isNamedAlone_of_isNamed hnamed
    have hoperand : ∀ d ∈ e.children, startsNoNumber d.render = true :=
      fun d hmem => ih d hmem (isNamed_of_mem_children hmem hnamed)
    cases e with
    | ref r => exact startsNoNumber_of_isIdentifier halone
    | subField base | subIndex base | subAccess base =>
        simp only [render, String.append_assoc]
        exact startsWith_append (hoperand base (by simp [children])) _
    | literal value =>
        simp only [render, Literal.render_eq, String.append_assoc]
        refine startsWith_append (startsWith_imp ?_ (Literal.startsWith_isUpper halone)) _
        intro c hc
        have hletter : isLetter c = true :=
          (Bool.or_eq_true _ _).mpr (.inl ((Bool.or_eq_true _ _).mpr (.inl hc)))
        simp [isDigit_eq_false_of_isLetter hletter]
    | prim op =>
        refine startsWith_append (startsWith_append (startsWith_append ?_ _) _) _
        cases op <;> rfl
    | _ => simp [render, startsNoNumber, startsWith]

theorem clear_layout {e : Expr} (hnamed : e.isNamed = true) : e.layout.Clear := by
  induction e using induction with
  | step e ih =>
    have halone := isNamedAlone_of_isNamed hnamed
    have hparts : ∀ d ∈ e.children, d.render ≠ "" ∧ Closed d.render.toList := by
      intro d hmem
      have hd := isNamed_of_mem_children hmem hnamed
      exact ⟨ne_empty_of_startsNoNumber (startsNoNumber_render hd),
        d.chars_layout ▸ (ih d hmem hd).closed⟩
    cases e with
    | ref r => exact .name (all_isNameChar_of_isIdentifier halone)
    | subField base field ty =>
        exact .member (hparts base (by simp [children])).2 (all_isNameChar_of_isIdentifier halone)
    | subIndex base index ty =>
        refine .group (hparts base (by simp [children])).2 rfl rfl ?_
        simpa using closed_toString_nat index
    | subAccess base index ty =>
        refine .group (hparts base (by simp [children])).2 rfl rfl ?_
        simpa using hparts index (by simp [children])
    | literal value =>
        refine .group ?_ rfl rfl ?_
        · exact Ty.closed_render_of_clear (value.ty.clear_layout (Literal.isNamed_ty halone))
        · simpa using ⟨toString_int_ne_empty value.number, closed_toString_int value.number⟩
    | prim op args consts ty =>
        refine .group ?_ rfl rfl ?_
        · cases op <;> exact closed_of_inner rfl
        · have hconsts : ∀ text ∈ consts.map toString, text ≠ "" ∧ Closed text.toList := by
            simpa using fun n _ => closed_toString_nat n
          exact List.forall_mem_append.mpr ⟨by simpa [children] using hparts, hconsts⟩
    | mux cond tval fval ty =>
        refine .group (closed_of_inner rfl) rfl rfl ?_
        simpa [children] using hparts
    | validIf cond value ty =>
        refine .group (closed_of_inner rfl) rfl rfl ?_
        simpa [children] using hparts
    | placeholder ty =>
        have hty := Ty.closed_render_of_clear (ty.clear_layout halone)
        have hopening : Closed "$dontcare<".toList := closed_of_inner rfl
        have hclosing : Closed ">".toList := closed_of_inner rfl
        have hclosed : Closed ("$dontcare<" ++ ty.render ++ ">").toList := by
          rw [String.toList_append, String.toList_append]
          exact (hopening.append hty).append hclosing
        have hlast : ("$dontcare<" ++ ty.render ++ ">").toList.getLast? = some '>' := by
          simp [List.getLast?_cons]
        exact .angle hclosed hlast

/-! ## Forms of expressions -/

/-- The forms that an expression can have. -/
inductive Form where
  | ref
  | subField
  | subIndex
  | subAccess
  | literal
  | prim
  | mux
  | validIf
  | placeholder

def form : Expr → Form
  | .ref _ => .ref
  | .subField .. => .subField
  | .subIndex .. => .subIndex
  | .subAccess .. => .subAccess
  | .literal _ => .literal
  | .prim .. => .prim
  | .mux .. => .mux
  | .validIf .. => .validIf
  | .placeholder _ => .placeholder

/-- What an expression is whose text is laid out in this way. -/
def formOf : Layout → Form
  | .plain text => if startsWith (· == '$') text then .placeholder else .ref
  | .member .. => .subField
  | .group before opening parts _ =>
      if opening == '[' then
        -- A constant index is a number, and a dynamic one starts with no digit.
        if parts.all startsNoNumber then .subAccess else .subIndex
      else if before == "mux" then .mux
      else if before == "validif" then .validIf
      -- The types of literals start with a capital letter, and no mnemonic does.
      else if startsWith Char.isUpper before then .literal
      else .prim

theorem formOf_layout {e : Expr} (hnamed : e.isNamed = true) : formOf e.layout = e.form := by
  have halone := isNamedAlone_of_isNamed hnamed
  cases e with
  | ref r =>
      obtain ⟨c, cs, hchars, hfirst, -⟩ := exists_of_isIdentifier halone
      have hdollar : c ≠ '$' := by
        rintro rfl
        simp [isLetter] at hfirst
      simp [layout, formOf, form, startsWith, hchars, hdollar]
  | subField base field ty => rfl
  | subIndex base index ty =>
      have hindex := startsNoNumber_toString index
      simp_all [layout, formOf, form]
  | subAccess base index ty =>
      have hindex := startsNoNumber_render
        (isNamed_of_mem_children (List.mem_cons_of_mem _ List.mem_cons_self) hnamed)
      simp [layout, formOf, form, hindex]
  | literal value =>
      have hupper := Literal.startsWith_isUpper halone
      have hne : ∀ word, startsWith Char.isUpper word = false → value.ty.render ≠ word := by
        rintro word hword rfl
        simp [hupper] at hword
      simp [layout, formOf, form, hupper, hne "mux" rfl, hne "validif" rfl]
  | prim op args consts ty => cases op <;> rfl
  | mux cond tval fval ty => rfl
  | validIf cond value ty => rfl
  | placeholder ty => simp [layout, formOf, form, startsWith]

/-! ## Reading back -/

theorem layout_eq_of_render_eq {a b : Expr} (ha : a.isNamed = true) (hb : b.isNamed = true)
    (heq : a.render = b.render) : a.layout = b.layout := by
  refine (clear_layout ha).eq_of_chars_eq (clear_layout hb) ?_
  rw [chars_layout, chars_layout, heq]

/-- Operands are told from the numbers behind them by their first characters. -/
theorem args_eq_of_parts_eq {args args' : List Expr} {consts consts' : List Nat}
    (hargs : ∀ d ∈ args, d.isNamed = true) (hargs' : ∀ d ∈ args', d.isNamed = true)
    (heq : args.map render ++ consts.map toString = args'.map render ++ consts'.map toString) :
    args.map render = args'.map render ∧ consts = consts' := by
  have hoperands : ∀ {ds : List Expr}, (∀ d ∈ ds, d.isNamed = true) →
      ∀ text ∈ ds.map render, startsNoNumber text = true := by
    intro ds hds text htext
    obtain ⟨d, hmem, rfl⟩ := List.mem_map.mp htext
    exact startsNoNumber_render (hds d hmem)
  have hnumbers : ∀ ns : List Nat, ∀ text ∈ (ns.map toString).head?,
      startsNoNumber text = false := by
    intro ns text htext
    obtain ⟨n, -, rfl⟩ := List.mem_map.mp (List.mem_of_head? htext)
    exact startsNoNumber_toString n
  obtain ⟨htexts, hconsts⟩ := append_inj_of_span (hoperands hargs) (hoperands hargs')
    (hnumbers consts) (hnumbers consts') heq
  exact ⟨htexts, List.map_injective_iff.mpr (fun _ _ => repr_nat_inj.mp) hconsts⟩

theorem map_eq_of_render_eq {g : Expr → Expr} {ds es : List Expr}
    (hg : ∀ d ∈ ds, ∀ e ∈ es, d.render = e.render → g d = g e)
    (heq : ds.map render = es.map render) : ds.map g = es.map g := by
  induction ds generalizing es with
  | nil => simp_all
  | cons d ds ih =>
      cases es with
      | nil => simp at heq
      | cons e es =>
          obtain ⟨hfirst, hrest⟩ := List.cons.inj heq
          have hmore := ih (fun d hd e he => hg d (.tail _ hd) e (.tail _ he)) hrest
          rw [List.map_cons, List.map_cons, hmore, hg d (.head _) e (.head _) hfirst]

/-- Expressions that are laid out alike have operands of the same texts, and differ otherwise in
nothing that is written. -/
theorem forget_mapChildren_eq {a b : Expr} (ha : a.isNamed = true) (hb : b.isNamed = true)
    (hlayout : a.layout = b.layout) {g : Expr → Expr}
    (hg : ∀ d ∈ a.children, ∀ e ∈ b.children, d.render = e.render → g d = g e) :
    (a.mapChildren g).forget = (b.mapChildren g).forget := by
  have hform : a.form = b.form := by rw [← formOf_layout ha, ← formOf_layout hb, hlayout]
  have haloneA := isNamedAlone_of_isNamed ha
  have haloneB := isNamedAlone_of_isNamed hb
  -- Of all pairs of constructors, those of one form are left.
  cases a <;> cases b <;> simp only [form, reduceCtorEq] at hform
  case ref.ref r q => simp [mapChildren, forget, Layout.plain.inj hlayout]
  case subField.subField base field _ base' field' _ =>
    obtain ⟨hbase, hfield⟩ := Layout.member.inj hlayout
    simp [mapChildren, forget, hfield, hg base (.head _) base' (.head _) hbase]
  case subIndex.subIndex base index _ base' index' _ =>
    obtain ⟨hbase, -, hindex, -⟩ := Layout.group.inj hlayout
    have hindex := repr_nat_inj.mp (List.cons.inj hindex).1
    simp [mapChildren, forget, hindex, hg base (.head _) base' (.head _) hbase]
  case subAccess.subAccess base index _ base' index' _ =>
    obtain ⟨hbase, -, hindex, -⟩ := Layout.group.inj hlayout
    have hindex := (List.cons.inj hindex).1
    simp [mapChildren, forget, hg base (.head _) base' (.head _) hbase,
      hg index (.tail _ (.head _)) index' (.tail _ (.head _)) hindex]
  case literal.literal value value' =>
    obtain ⟨hty, -, hnumber, -⟩ := Layout.group.inj hlayout
    have hty := Ty.eq_of_render_eq _ _ (Literal.isNamed_ty haloneA) (Literal.isNamed_ty haloneB) hty
    have hnumber := repr_int_inj.mp (List.cons.inj hnumber).1
    rw [Literal.eq_of_ty_eq haloneA haloneB hty hnumber]
  case prim.prim op args consts _ op' args' consts' _ =>
    obtain ⟨hop, -, hparts, -⟩ := Layout.group.inj hlayout
    obtain ⟨hargs, hconsts⟩ := args_eq_of_parts_eq
      (fun d hd => isNamed_of_mem_children hd ha) (fun d hd => isNamed_of_mem_children hd hb) hparts
    have hmapped : args.map g = args'.map g := map_eq_of_render_eq hg hargs
    simp only [mapChildren, forget, PrimOp.mnemonic_injective hop, hconsts, hmapped]
  case mux.mux cond tval fval _ cond' tval' fval' _ =>
    obtain ⟨-, -, hparts, -⟩ := Layout.group.inj hlayout
    have hmapped := map_eq_of_render_eq hg hparts
    simp_all [mapChildren, forget, children]
  case validIf.validIf cond value _ cond' value' _ =>
    obtain ⟨-, -, hparts, -⟩ := Layout.group.inj hlayout
    have hmapped := map_eq_of_render_eq hg hparts
    simp_all [mapChildren, forget, children]
  case placeholder.placeholder ty ty' =>
    have htext : ty.render = ty'.render := by simpa using Layout.plain.inj hlayout
    rw [Ty.eq_of_render_eq _ _ haloneA haloneB htext]

theorem bare_eq (e : Expr) : e.bare = (e.mapChildren bare).forget :=
  bottomUp_eq forget e

theorem bare_eq_of_render_eq {a b : Expr} (ha : a.isNamed = true) (hb : b.isNamed = true)
    (heq : a.render = b.render) : a.bare = b.bare := by
  induction a using induction generalizing b with
  | step a ih =>
      rw [bare_eq, bare_eq]
      refine forget_mapChildren_eq ha hb (layout_eq_of_render_eq ha hb heq) ?_
      intro d hd e he
      exact ih d hd (isNamed_of_mem_children hd ha) (isNamed_of_mem_children he hb)

/-- The annotations that are forgotten are not written. -/
theorem render_bare (e : Expr) : e.bare.render = e.render := by
  induction e using induction with
  | step e ih =>
      rw [bare_eq]
      cases e with
      | prim op args consts ty =>
          have hargs : (args.map bare).map render = args.map render := by
            simpa [children] using ih
          simp [mapChildren, forget, render, renderAll_eq, hargs]
      | _ => simp_all [mapChildren, forget, render, children]

end Expr

/-- Texts are equal for expressions that differ in nothing but annotations that are not written,
and for no others. Different types have different texts. -/
theorem render_eq_iff :
    (∀ a b : Expr, a.isNamed = true → b.isNamed = true →
      (a.render = b.render ↔ a.bare = b.bare)) ∧
    ∀ s t : Ty, s.isNamed = true → t.isNamed = true → (s.render = t.render ↔ s = t) := by
  constructor
  · intro a b ha hb
    constructor
    · exact Expr.bare_eq_of_render_eq ha hb
    · intro hbare
      rw [← a.render_bare, ← b.render_bare, hbare]
  · intro s t hs ht
    exact ⟨s.eq_of_render_eq t hs ht, congrArg Ty.render⟩

/-- A range of bits of a vector that is found under names like the words of the text. -/
def wordsAsNames (ty : Ty) (facing : Facing) : Expr :=
  .prim .bits
    [.subAccess (.subField (.ref ⟨"mux", ty, .wire, facing⟩) "validif" ty)
      (.literal (.interval (-3) (.interval (.exclusive (-4)) .unknown (.known 2)))) ty]
    [7, 0] ty

/-- A bundle of one field that is called like the word that flips it. -/
def flipField (flipped : Bool) : Ty :=
  .bundle [⟨"flip", flipped, .vector (.fixed .unknown (.known 3)) 2⟩]

theorem wordsAsNames_render_eq_iff :
    (wordsAsNames .clock .read ≠ wordsAsNames (flipField true) .write ∧
      (wordsAsNames .clock .read).bare = (wordsAsNames (flipField true) .write).bare) ∧
    (flipField true).render ≠ (flipField false).render := by
  have hsame := render_eq_iff.1 (wordsAsNames .clock .read) (wordsAsNames (flipField true) .write)
    (by decide +kernel) (by decide +kernel)
  have hother := render_eq_iff.2 (flipField true) (flipField false) rfl rfl
  refine ⟨⟨by decide, hsame.mp rfl⟩, fun heq => ?_⟩
  exact absurd (hother.mp heq) (by decide)

end Rtl
