import Rtl.Proofs.Brackets
import Rtl.Render

/-! # The text of a type

No two types have the same text, as long as the names of their fields are identifiers. The last
bracket of the text tells vectors, bundles and intervals from each other, a number after a dot is
the binary point of an interval, and the remaining types differ in their first letter.
-/

namespace Rtl

/-! ## Numbers and names -/

namespace Text

/-- A letter or an underscore, followed by letters, digits and underscores. -/
def isIdentifier (name : String) : Bool :=
  match name.toList with
  | [] => false
  | c :: cs => (isLetter c || c == '_') && cs.all isNameChar

theorem exists_of_isIdentifier {name : String} (hname : isIdentifier name = true) :
    ∃ c cs, name.toList = c :: cs ∧ (isLetter c = true ∨ c = '_') ∧ cs.all isNameChar = true := by
  rw [isIdentifier] at hname
  split at hname
  · simp at hname
  next c cs hchars => exact ⟨c, cs, hchars, by simpa using hname⟩

theorem all_isNameChar_of_isIdentifier {name : String} (hname : isIdentifier name = true) :
    name.toList.all isNameChar = true := by
  obtain ⟨c, cs, hchars, hfirst, hrest⟩ := exists_of_isIdentifier hname
  have hc : isNameChar c = true := by
    rcases hfirst with hletter | rfl
    · simp [isNameChar, hletter]
    · rfl
  simp [hchars, hc, hrest]

/-- The codes of digits are below those of all letters. -/
theorem lt_toNat_of_isLetter {c : Char} (hc : isLetter c = true) : '9'.toNat < c.toNat := by
  have hupper : '9'.toNat < 'A'.toNat := by decide
  have hlower : '9'.toNat < 'a'.toNat := by decide
  have hlast : '9'.toNat < 127 := by decide
  rcases (Bool.or_eq_true _ _).mp hc with halpha | hbeyond
  · rcases (Bool.or_eq_true _ _).mp halpha with hcase | hcase
    · have hle : 'A'.val ≤ c.val := (of_decide_eq_true hcase).1
      exact hupper.trans_le (UInt32.le_iff_toNat_le.mp hle)
    · have hle : 'a'.val ≤ c.val := of_decide_eq_true ((Bool.and_eq_true _ _).mp hcase).1
      exact hlower.trans_le (UInt32.le_iff_toNat_le.mp hle)
  · exact hlast.trans (of_decide_eq_true hbeyond)

theorem isDigit_eq_false_of_isLetter {c : Char} (hc : isLetter c = true) : c.isDigit = false := by
  rw [← Bool.not_eq_true, Char.isDigit_iff_toNat, not_and, not_le]
  exact fun _ => lt_toNat_of_isLetter hc

theorem isDigit_of_mem_toString {n : Nat} {c : Char} (hc : c ∈ (toString n).toList) :
    c.isDigit = true := by
  have hdigits : c ∈ Nat.toDigits 10 n := by simpa using hc
  exact Nat.isDigit_of_mem_toDigits (by decide) (by decide) hdigits

theorem isDigit_or_of_mem_toString {v : Int} {c : Char} (hc : c ∈ (toString v).toList) :
    c.isDigit = true ∨ c = '-' := by
  have hdigits : ∀ n : Nat, c ∈ n.repr.toList → c.isDigit = true :=
    fun n hn => isDigit_of_mem_toString hn
  rw [Int.toString_eq_repr, Int.repr_eq_if] at hc
  split at hc
  · exact .inl (hdigits _ hc)
  · rw [String.toList_append, List.mem_append] at hc
    rcases hc with hsign | hc
    · exact .inr (by simpa using hsign)
    · exact .inl (hdigits _ hc)

theorem isNameChar_of_isDigit {c : Char} (hc : c.isDigit = true) : isNameChar c = true := by
  simp [isNameChar, hc]

theorem all_isNameChar_toString (n : Nat) : (toString n).toList.all isNameChar = true :=
  List.all_eq_true.mpr fun _ hc => isNameChar_of_isDigit (isDigit_of_mem_toString hc)

/-- The text of a number stays in one piece, with or without a sign. -/
theorem closed_toString_int (v : Int) : Closed (toString v).toList := by
  refine closed_of_inner (List.all_eq_true.mpr fun c hc => ?_)
  rcases isDigit_or_of_mem_toString hc with hdigit | rfl
  · exact isInner_of_isNameChar (isNameChar_of_isDigit hdigit)
  · rfl

theorem closed_toString_nat (n : Nat) : Closed (toString n).toList :=
  closed_of_names (all_isNameChar_toString n)

/-- The digits of a number tell which number it is. -/
theorem repr_nat_inj {m n : Nat} : m.repr = n.repr ↔ m = n := by
  refine ⟨fun heq => ?_, congrArg Nat.repr⟩
  have hdigits : Nat.toDigits 10 m = Nat.toDigits 10 n := by
    simpa only [Nat.toList_repr] using congrArg String.toList heq
  have hvalue := congrArg (Nat.ofDigitChars 10 · 0) hdigits
  simpa only [Nat.ofDigitChars_ten_toDigits] using hvalue

theorem repr_int_inj {v w : Int} : v.repr = w.repr ↔ v = w := by
  refine ⟨fun heq => ?_, congrArg Int.repr⟩
  have hsign : ∀ m n : Nat, m.repr ≠ "-" ++ n.repr := by
    intro m n heq
    have hmem : '-' ∈ (toString m).toList := by simp [heq]
    exact absurd (isDigit_of_mem_toString hmem) (by decide)
  rw [Int.repr_eq_if, Int.repr_eq_if] at heq
  split at heq <;> split at heq
  · have hvalue := repr_nat_inj.mp heq
    omega
  · exact absurd heq (hsign _ _)
  · exact absurd heq.symm (hsign _ _)
  · have hvalue := repr_nat_inj.mp ((String.append_right_inj "-").mp heq)
    omega

theorem toString_int_ne_empty (v : Int) : toString v ≠ "" := by
  rw [Int.toString_eq_repr, Int.repr_eq_if]
  split <;> simp

/-- Two beginnings of a text whose characters, and not the one behind them, are of some kind, are
one beginning. -/
theorem append_inj_of_span {α : Type} {p : α → Bool} {u v x y : List α}
    (hu : ∀ a ∈ u, p a = true) (hv : ∀ a ∈ v, p a = true) (hx : ∀ a ∈ x.head?, p a = false)
    (hy : ∀ a ∈ y.head?, p a = false) (heq : u ++ x = v ++ y) : u = v ∧ x = y := by
  have hdrop : ∀ {z : List α}, (∀ a ∈ z.head?, p a = false) → z.dropWhile p = z := by
    intro z hz
    cases z with
    | nil => rfl
    | cons a z => simp [hz a rfl]
  have hrest : x = y := by
    have hdropped := congrArg (List.dropWhile p) heq
    rwa [List.dropWhile_append_of_pos hu, List.dropWhile_append_of_pos hv, hdrop hx,
      hdrop hy] at hdropped
  exact ⟨List.append_cancel_right (hrest ▸ heq), hrest⟩

theorem name_inj {m n : String} (hm : isIdentifier m = true) (hn : isIdentifier n = true)
    {x y : List Char} (heq : m.toList ++ ' ' :: x = n.toList ++ ' ' :: y) : m = n ∧ x = y := by
  obtain ⟨hname, hrest⟩ := append_inj_of_span
    (List.all_eq_true.mp (all_isNameChar_of_isIdentifier hm))
    (List.all_eq_true.mp (all_isNameChar_of_isIdentifier hn)) (by simp; rfl) (by simp; rfl) heq
  exact ⟨String.toList_injective hname, (List.cons.inj hrest).2⟩

end Text

open Text

/-! ## Widths -/

namespace Width

/-- Nothing or a number in brackets, as it is written for a width, tells which width it is. -/
theorem eq_of_bracketed_eq {text : Width → String} {opening closing : String}
    (hopening : opening ≠ "") (hunknown : text unknown = "")
    (hknown : ∀ bits, text (known bits) = opening ++ toString bits ++ closing) {v w : Width}
    (heq : text v = text w) : v = w := by
  have hne : ∀ bits, text (known bits) ≠ text unknown := by
    intro bits
    simp [hknown, hunknown, hopening]
  cases v with
  | unknown =>
      cases w with
      | unknown => rfl
      | known n => exact absurd heq.symm (hne n)
  | known m =>
      cases w with
      | unknown => exact absurd heq (hne m)
      | known n =>
          rw [hknown, hknown] at heq
          have hdigits := (String.append_right_inj _).mp ((String.append_left_inj _).mp heq)
          exact congrArg known (repr_nat_inj.mp hdigits)

theorem eq_of_render_eq {v w : Width} (heq : v.render = w.render) : v = w :=
  eq_of_bracketed_eq (by decide) rfl (fun _ => rfl) heq

theorem eq_of_renderPoint_eq {v w : Width} (heq : v.renderPoint = w.renderPoint) : v = w :=
  eq_of_bracketed_eq (by decide) rfl (fun _ => rfl) heq

/-- Where a width ends is told by the digits in it. -/
theorem append_inj_of_digits {m : Nat} {v x y : List Char} (hv : ∀ c ∈ v, c.isDigit = true)
    (hy : ∀ c ∈ y.head?, c.isDigit = false)
    (heq : (toString m).toList ++ '>' :: x = v ++ y) :
    (toString m).toList = v ∧ '>' :: x = y :=
  append_inj_of_span (fun _ => isDigit_of_mem_toString) hv (by simp) hy heq

theorem render_append_ne (m : Nat) (p q : Width) :
    (known m).render ++ p.renderPoint ≠ q.renderPoint := by
  intro heq
  cases q with
  | unknown => simp [render, renderPoint] at heq
  | known n =>
      -- A width starts with one bracket and a point with two.
      have hlist : (toString m).toList ++ '>' :: p.renderPoint.toList =
          [] ++ '<' :: ((toString n).toList ++ ['>', '>']) := by
        simpa [render, renderPoint] using congrArg String.toList heq
      obtain ⟨-, hhead⟩ := append_inj_of_digits (by simp) (by simp) hlist
      simp at hhead

theorem eq_of_append_eq {v w p q : Width}
    (heq : v.render ++ p.renderPoint = w.render ++ q.renderPoint) : v = w ∧ p = q := by
  cases v with
  | unknown =>
      cases w with
      | unknown => exact ⟨rfl, eq_of_renderPoint_eq (by simpa [render] using heq)⟩
      | known n => exact absurd (by simpa [render] using heq.symm) (render_append_ne n q p)
  | known m =>
      cases w with
      | unknown => exact absurd (by simpa [render] using heq) (render_append_ne m p q)
      | known n =>
          have hlist : (toString m).toList ++ '>' :: p.renderPoint.toList =
              (toString n).toList ++ '>' :: q.renderPoint.toList := by
            simpa [render] using congrArg String.toList heq
          obtain ⟨hdigits, hpoint⟩ :=
            append_inj_of_digits (fun _ => isDigit_of_mem_toString) (by simp) hlist
          exact ⟨congrArg known (repr_nat_inj.mp (String.toList_injective hdigits)),
            eq_of_renderPoint_eq (String.toList_injective (List.cons.inj hpoint).2)⟩

theorem closed_angles {opening closing : String} (hopening : opening.toList.all isInner = true)
    (hclosing : closing.toList.all isInner = true) (bits : Nat) :
    Closed (opening ++ toString bits ++ closing).toList := by
  rw [String.toList_append, String.toList_append]
  exact ((closed_of_inner hopening).append (closed_toString_nat bits)).append
    (closed_of_inner hclosing)

theorem closed_render (w : Width) : Closed w.render.toList := by
  cases w with
  | unknown => exact closed_nil
  | known bits => exact closed_angles rfl rfl bits

theorem closed_renderPoint (w : Width) : Closed w.renderPoint.toList := by
  cases w with
  | unknown => exact closed_nil
  | known bits => exact closed_angles rfl rfl bits

theorem clear_word {word : String} (hword : word.toList.all isNameChar = true) (w : Width) :
    (Layout.plain (word ++ w.render)).Clear := by
  cases w with
  | unknown => exact .name (by simpa [render] using hword)
  | known bits =>
      have hclosed : Closed (word ++ (known bits).render).toList := by
        rw [String.toList_append]
        exact (closed_of_names hword).append (closed_render _)
      have hlast : (word ++ (known bits).render).toList.getLast? = some '>' := by
        simp [render, List.getLast?_cons]
      exact .angle hclosed hlast

theorem clear_word_point {word : String} (hword : word.toList.all isNameChar = true)
    (w p : Width) : (Layout.plain (word ++ w.render ++ p.renderPoint)).Clear := by
  cases p with
  | unknown => simpa [renderPoint] using clear_word hword w
  | known bits =>
      have hclosed : Closed (word ++ w.render ++ (known bits).renderPoint).toList := by
        rw [String.toList_append, String.toList_append]
        exact ((closed_of_names hword).append (closed_render w)).append (closed_renderPoint _)
      have hlast : (word ++ w.render ++ (known bits).renderPoint).toList.getLast? = some '>' := by
        simp [renderPoint, List.getLast?_cons]
      exact .angle hclosed hlast

end Width

/-! ## Bounds -/

namespace Bound

def opening : Bound → Char
  | exclusive _ => '('
  | inclusive _ | unknown => '['

def closing : Bound → Char
  | exclusive _ => ')'
  | inclusive _ | unknown => ']'

def isExclusive : Bound → Bool
  | exclusive _ => true
  | inclusive _ | unknown => false

/-- What is written for a bound besides its bracket. -/
def text : Bound → String
  | exclusive value | inclusive value => toString value
  | unknown => "?"

theorem opens_opening (bound : Bound) : opens bound.opening = true := by
  cases bound <;> rfl

theorem closes_closing (bound : Bound) : closes bound.closing = true := by
  cases bound <;> rfl

theorem toList_renderLower (bound : Bound) :
    bound.renderLower.toList = bound.opening :: bound.text.toList := by
  cases bound <;> simp [renderLower, opening, text]

theorem toList_renderUpper (bound : Bound) :
    bound.renderUpper.toList = bound.text.toList ++ [bound.closing] := by
  cases bound <;> simp [renderUpper, closing, text]

theorem text_ne_empty (bound : Bound) : bound.text ≠ "" := by
  cases bound with
  | exclusive value | inclusive value => exact toString_int_ne_empty value
  | unknown => decide

theorem closed_text (bound : Bound) : Closed bound.text.toList := by
  cases bound with
  | exclusive value | inclusive value => exact closed_toString_int value
  | unknown => exact closed_of_inner rfl

theorem repr_ne_unknown (value : Int) : value.repr ≠ "?" := by
  intro heq
  have hmem : '?' ∈ (toString value).toList := by simp [heq]
  rcases isDigit_or_of_mem_toString hmem with hdigit | hsign
  · exact absurd hdigit (by decide)
  · exact absurd hsign (by decide)

theorem eq_of_text_eq {a b : Bound} (hkind : a.isExclusive = b.isExclusive)
    (htext : a.text = b.text) : a = b := by
  cases a with
  | exclusive v =>
      cases b with
      | exclusive w => exact congrArg exclusive (repr_int_inj.mp htext)
      | inclusive | unknown => simp [isExclusive] at hkind
  | inclusive v =>
      cases b with
      | exclusive => simp [isExclusive] at hkind
      | inclusive w => exact congrArg inclusive (repr_int_inj.mp htext)
      | unknown => exact absurd htext (repr_ne_unknown v)
  | unknown =>
      cases b with
      | exclusive => simp [isExclusive] at hkind
      | inclusive w => exact absurd htext.symm (repr_ne_unknown w)
      | unknown => rfl

theorem isExclusive_eq_of_opening_eq {a b : Bound} (hopening : a.opening = b.opening) :
    a.isExclusive = b.isExclusive := by
  cases a <;> cases b <;> simp_all [opening, isExclusive]

theorem isExclusive_eq_of_closing_eq {a b : Bound} (hclosing : a.closing = b.closing) :
    a.isExclusive = b.isExclusive := by
  cases a <;> cases b <;> simp_all [closing, isExclusive]

end Bound

/-! ## Types -/

mutual

/-- The names of all fields in the type are identifiers. -/
def Ty.isNamed : Ty → Bool
  | .vector element _ => element.isNamed
  | .bundle fields => Field.areNamed fields
  | .uint _ | .sint _ | .fixed .. | .interval .. | .clock | .analog _ => true

def Field.isNamed : Field → Bool
  | ⟨name, _, ty⟩ => isIdentifier name && ty.isNamed

def Field.areNamed : List Field → Bool
  | [] => true
  | field :: fields => field.isNamed && Field.areNamed fields

end

/-- How the text of a type is laid out. -/
def Ty.layout : Ty → Layout
  | .interval lower upper .unknown =>
      .group "Interval" lower.opening [lower.text, upper.text] upper.closing
  | .interval lower upper (.known bits) =>
      .member (Ty.interval lower upper .unknown).render (toString bits)
  | .vector element length => .group element.render '[' [toString length] ']'
  | .bundle fields => .group "" '\x7b' (Field.renderAll fields) '\x7d'
  | .uint width => .plain (Ty.uint width).render
  | .sint width => .plain (Ty.sint width).render
  | .fixed width point => .plain (Ty.fixed width point).render
  | .clock => .plain Ty.clock.render
  | .analog width => .plain (Ty.analog width).render

theorem Ty.chars_layout (ty : Ty) : ty.layout.chars = ty.render.toList := by
  cases ty with
  | interval lower upper point =>
      cases point <;>
        simp [layout, Layout.chars, render, commas, Width.renderPrecision,
          Bound.toList_renderLower, Bound.toList_renderUpper]
  | vector | bundle => simp [layout, Layout.chars, render, commas]
  | _ => rfl

theorem Ty.closed_render_of_clear {ty : Ty} (hclear : ty.layout.Clear) :
    Closed ty.render.toList :=
  ty.chars_layout ▸ hclear.closed

theorem Ty.clear_layout_interval (lower upper : Bound) (point : Width) :
    (Ty.interval lower upper point).layout.Clear := by
  have hunknown : (Ty.interval lower upper .unknown).layout.Clear := by
    refine .group (closed_of_inner rfl) lower.opens_opening upper.closes_closing ?_
    simp [Bound.text_ne_empty, Bound.closed_text]
  cases point with
  | unknown => exact hunknown
  | known bits => exact .member (closed_render_of_clear hunknown) (all_isNameChar_toString bits)

mutual

theorem Ty.clear_layout : ∀ ty : Ty, ty.isNamed = true → ty.layout.Clear
  | .uint width, _ | .sint width, _ | .analog width, _ => Width.clear_word rfl width
  | .fixed width point, _ => Width.clear_word_point rfl width point
  | .clock, _ => .name rfl
  | .interval lower upper point, _ => Ty.clear_layout_interval lower upper point
  | .vector element length, hnamed => by
      refine .group (Ty.closed_render_of_clear (element.clear_layout hnamed)) rfl rfl ?_
      simpa using closed_toString_nat length
  | .bundle fields, hnamed => .group closed_nil rfl rfl (Field.closed_renderAll fields hnamed)

theorem Field.closed_render : ∀ field : Field, field.isNamed = true → Closed field.render.toList
  | ⟨name, flipped, ty⟩, hnamed => by
      simp only [Field.isNamed, Bool.and_eq_true] at hnamed
      have hname := closed_of_names (all_isNameChar_of_isIdentifier hnamed.1)
      have hty := Ty.closed_render_of_clear (ty.clear_layout hnamed.2)
      have hflip : Closed (if flipped then "flip " else "").toList := by
        cases flipped <;> exact closed_of_inner rfl
      have hcolon : Closed " : ".toList := closed_of_inner rfl
      simp only [Field.render, String.toList_append]
      exact ((hflip.append hname).append hcolon).append hty

theorem Field.closed_renderAll : ∀ fields : List Field, Field.areNamed fields = true →
    ∀ text ∈ Field.renderAll fields, text ≠ "" ∧ Closed text.toList
  | [], _ => by simp [Field.renderAll]
  | field :: fields, hnamed => by
      simp only [Field.areNamed, Bool.and_eq_true] at hnamed
      simp only [Field.renderAll, List.forall_mem_cons]
      refine ⟨⟨?_, field.closed_render hnamed.1⟩, Field.closed_renderAll fields hnamed.2⟩
      cases field
      simp [Field.render]

end

theorem Field.eq_of_flipped_eq {f g : Field} (hf : f.isNamed = true) (hg : g.isNamed = true)
    (hflipped : f.flipped = g.flipped) (heq : f.render = g.render) :
    f.name = g.name ∧ f.ty.render = g.ty.render := by
  obtain ⟨m, flipped, s⟩ := f
  obtain ⟨n, flipped', t⟩ := g
  obtain rfl : flipped = flipped' := hflipped
  simp only [Field.isNamed, Bool.and_eq_true] at hf hg
  have hchars : m.toList ++ ' ' :: (':' :: ' ' :: s.render.toList) =
      n.toList ++ ' ' :: (':' :: ' ' :: t.render.toList) := by
    simpa [Field.render] using congrArg String.toList heq
  obtain ⟨hname, hty⟩ := name_inj hf.1 hg.1 hchars
  exact ⟨hname, String.toList_injective (by simpa using hty)⟩

/-- A field may be called like the word that flips one: then a colon comes next, and no name. -/
theorem Field.render_flipped_ne {m n : String} {s t : Ty} (hm : isIdentifier m = true)
    (hn : isIdentifier n = true) :
    (Field.mk m true s).render ≠ (Field.mk n false t).render := by
  intro heq
  have hchars : "flip".toList ++ ' ' :: (m.toList ++ ' ' :: ':' :: ' ' :: s.render.toList) =
      n.toList ++ ' ' :: (':' :: ' ' :: t.render.toList) := by
    simpa [Field.render] using congrArg String.toList heq
  obtain ⟨-, hrest⟩ := name_inj rfl hn hchars
  obtain ⟨c, cs, hcs, hfirst, -⟩ := exists_of_isIdentifier hm
  obtain rfl : c = ':' := by
    rw [hcs] at hrest
    exact (List.cons.inj hrest).1
  simp [isLetter] at hfirst

theorem Field.flipped_eq_of_render_eq {f g : Field} (hf : f.isNamed = true)
    (hg : g.isNamed = true) (heq : f.render = g.render) : f.flipped = g.flipped := by
  obtain ⟨m, flippedF, s⟩ := f
  obtain ⟨n, flippedG, t⟩ := g
  simp only [Field.isNamed, Bool.and_eq_true] at hf hg
  cases flippedF <;> cases flippedG
  · rfl
  · exact absurd heq.symm (Field.render_flipped_ne hg.1 hf.1)
  · exact absurd heq (Field.render_flipped_ne hf.1 hg.1)
  · rfl

namespace Ty

theorem layout_eq_of_render_eq {s t : Ty} (hs : s.isNamed = true) (ht : t.isNamed = true)
    (heq : s.render = t.render) : s.layout = t.layout := by
  refine (s.clear_layout hs).eq_of_chars_eq (t.clear_layout ht) ?_
  rw [chars_layout, chars_layout, heq]

theorem bounds_eq_of_layout_eq {a b c d : Bound}
    (heq : (interval a b .unknown).layout = (interval c d .unknown).layout) : a = c ∧ b = d := by
  simp only [layout, Layout.group.injEq, List.cons.injEq, and_true, true_and] at heq
  obtain ⟨hopening, ⟨hlower, hupper⟩, hclosing⟩ := heq
  exact ⟨Bound.eq_of_text_eq (Bound.isExclusive_eq_of_opening_eq hopening) hlower,
    Bound.eq_of_text_eq (Bound.isExclusive_eq_of_closing_eq hclosing) hupper⟩

theorem eq_of_interval_render_eq {lower upper : Bound} {point : Width} {t : Ty}
    (ht : t.isNamed = true) (heq : (interval lower upper point).render = t.render) :
    interval lower upper point = t := by
  have hlayout := layout_eq_of_render_eq rfl ht heq
  cases t with
  | interval lower' upper' point' =>
      cases point <;> cases point' <;> simp only [layout, reduceCtorEq] at hlayout
      · obtain ⟨hbase, hbits⟩ := Layout.member.inj hlayout
        obtain ⟨rfl, rfl⟩ := bounds_eq_of_layout_eq (layout_eq_of_render_eq rfl rfl hbase)
        rw [repr_nat_inj.mp hbits]
      · obtain ⟨rfl, rfl⟩ := bounds_eq_of_layout_eq hlayout
        rfl
  | _ => cases point <;> simp [layout] at hlayout

theorem plain_cases {ty : Ty} {text : String} (hplain : ty.layout = .plain text) :
    (∃ width, ty = uint width) ∨ (∃ width, ty = sint width) ∨
      (∃ width point, ty = fixed width point) ∨ ty = clock ∨ ∃ width, ty = analog width := by
  cases ty with
  | interval _ _ point => cases point <;> simp [layout] at hplain
  | vector | bundle => simp [layout] at hplain
  | _ => simp

theorem eq_of_plain_layout_eq {s t : Ty} {text : String} (hs : s.layout = .plain text)
    (ht : t.layout = .plain text) : s = t := by
  have hchars : s.render.toList = t.render.toList := by
    rw [← chars_layout, ← chars_layout, hs, ht]
  -- Types of different kinds differ in the first letter of their texts.
  rcases plain_cases hs with ⟨v, rfl⟩ | ⟨v, rfl⟩ | ⟨v, p, rfl⟩ | rfl | ⟨v, rfl⟩ <;>
    rcases plain_cases ht with ⟨w, rfl⟩ | ⟨w, rfl⟩ | ⟨w, q, rfl⟩ | rfl | ⟨w, rfl⟩ <;>
    simp [render] at hchars
  · rw [Width.eq_of_render_eq (String.toList_injective hchars)]
  · rw [Width.eq_of_render_eq (String.toList_injective hchars)]
  · obtain ⟨rfl, rfl⟩ := Width.eq_of_append_eq (String.toList_injective (by simpa using hchars))
    rfl
  · rfl
  · rw [Width.eq_of_render_eq (String.toList_injective hchars)]

end Ty

mutual

theorem Ty.eq_of_render_eq : ∀ s t : Ty, s.isNamed = true → t.isNamed = true →
    s.render = t.render → s = t
  | .vector element length, t, hs, ht, heq => by
      have hlayout := Ty.layout_eq_of_render_eq hs ht heq
      cases t with
      | vector element' length' =>
          obtain ⟨helement, -, hlength, -⟩ := Layout.group.inj hlayout
          rw [element.eq_of_render_eq element' hs ht helement,
            repr_nat_inj.mp (List.cons.inj hlength).1]
      | interval lower upper point => cases point <;> simp [Ty.layout] at hlayout
      | _ => simp [Ty.layout] at hlayout
  | .bundle fields, t, hs, ht, heq => by
      have hlayout := Ty.layout_eq_of_render_eq hs ht heq
      cases t with
      | bundle fields' =>
          obtain ⟨-, -, hfields, -⟩ := Layout.group.inj hlayout
          rw [Field.eq_of_renderAll_eq fields fields' hs ht hfields]
      | interval lower upper point => cases point <;> simp [Ty.layout] at hlayout
      | _ => simp [Ty.layout] at hlayout
  | .interval .., t, _, ht, heq => Ty.eq_of_interval_render_eq ht heq
  | .uint _, t, hs, ht, heq | .sint _, t, hs, ht, heq | .fixed .., t, hs, ht, heq
  | .clock, t, hs, ht, heq | .analog _, t, hs, ht, heq => by
      have hlayout := Ty.layout_eq_of_render_eq hs ht heq
      exact Ty.eq_of_plain_layout_eq rfl hlayout.symm

theorem Field.eq_of_renderAll_eq : ∀ fs gs : List Field, Field.areNamed fs = true →
    Field.areNamed gs = true → Field.renderAll fs = Field.renderAll gs → fs = gs
  | [], [], _, _, _ => rfl
  | [], _ :: _, _, _, heq | _ :: _, [], _, _, heq => by simp [Field.renderAll] at heq
  | ⟨m, flippedF, s⟩ :: fs, ⟨n, flippedG, t⟩ :: gs, hfs, hgs, heq => by
      simp only [Field.areNamed, Bool.and_eq_true] at hfs hgs
      obtain ⟨hfirst, hrest⟩ := List.cons.inj heq
      have hflipped := Field.flipped_eq_of_render_eq hfs.1 hgs.1 hfirst
      obtain ⟨hname, hty⟩ := Field.eq_of_flipped_eq hfs.1 hgs.1 hflipped hfirst
      simp only [Field.isNamed, Bool.and_eq_true] at hfs hgs
      rw [show m = n from hname, show flippedF = flippedG from hflipped,
        s.eq_of_render_eq t hfs.1.2 hgs.1.2 hty, Field.eq_of_renderAll_eq fs gs hfs.2 hgs.2 hrest]

end

end Rtl
