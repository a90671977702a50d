import Mathlib.Data.List.Basic
import Mathlib.Data.List.TakeWhile
import Rtl.Text.Lines

/-! # Taking texts apart from their ends

A text that ends with a closing bracket falls into what stands in front of the matching bracket and
the parts in between, as long as brackets match in each part and commas stand inside of brackets
only. Any opening bracket matches any closing one. A text that ends with a name after a dot falls
into that name and what stands in front of the dot. So the text that is laid out in such a way tells
how it has been laid out.
-/

namespace Rtl.Text

/-- Every character beyond the basic ones counts as a letter. -/
def isLetter (c : Char) : Bool :=
  c.isAlpha || 127 < c.toNat

def isNameChar (c : Char) : Bool :=
  isLetter c || c.isDigit || c == '_'

def opens (c : Char) : Bool :=
  c == '(' || c == '[' || c == '\x7b'

def closes (c : Char) : Bool :=
  c == ')' || c == ']' || c == '\x7d'

/-- Characters that have no part in how a text falls apart at its brackets. -/
def isInner (c : Char) : Bool :=
  !opens c && !closes c && c != ','

/-- How a text ends: with parts in brackets, with a name after a dot, or otherwise. A name alone has
no parts, and neither has a text that ends with an angle. -/
inductive Layout where
  | group (before : String) (opening : Char) (parts : List String) (closing : Char)
  | member (base name : String)
  | plain (text : String)

/-- The characters of the text that is laid out. -/
def Layout.chars : Layout → List Char
  | group before opening parts closing =>
      before.toList ++ opening :: (commas parts).toList ++ [closing]
  | member base name => base.toList ++ '.' :: name.toList
  | plain text => text.toList

/-! ## Going back to a bracket -/

/-- Go back through a text, which is given from its end, to the bracket that is still open. The
commas on the way that stand in no brackets of their own separate the parts; a blank follows each
of them. The part that is being gone through and those behind it are kept. -/
def partsBack : (depth : Nat) → (part : List Char) → (parts : List (List Char)) → List Char →
    Option (List (List Char) × Char × List Char)
  | _, _, _, [] => none
  | depth, part, parts, c :: cs =>
      if closes c then partsBack (depth + 1) (c :: part) parts cs
      else if opens c then
        match depth with
        | 0 => some (part :: parts, c, cs.reverse)
        | depth + 1 => partsBack depth (c :: part) parts cs
      else if c == ',' && depth == 0 then partsBack depth [] (part.tail :: parts) cs
      else partsBack depth (c :: part) parts cs

/-- So deep in brackets, going back through the text adds it to the part that is being gone
through. -/
def ClosedAt (depth : Nat) (text : List Char) : Prop :=
  ∀ part parts rest,
    partsBack depth part parts (text.reverse ++ rest) = partsBack depth (text ++ part) parts rest

/-- Brackets match, and commas stand inside of them. -/
def Closed (text : List Char) : Prop :=
  ∀ depth, ClosedAt depth text

theorem closes_eq_false_of_opens {c : Char} (hc : opens c = true) : closes c = false := by
  simp only [opens, Bool.or_eq_true, beq_iff_eq] at hc
  rcases hc with (rfl | rfl) | rfl <;> rfl

theorem ClosedAt.append {depth : Nat} {text more : List Char} (htext : ClosedAt depth text)
    (hmore : ClosedAt depth more) : ClosedAt depth (text ++ more) := by
  intro part parts rest
  rw [List.reverse_append, List.append_assoc, hmore, htext, List.append_assoc]

theorem Closed.append {text more : List Char} (htext : Closed text) (hmore : Closed more) :
    Closed (text ++ more) :=
  fun depth => (htext depth).append (hmore depth)

theorem closed_nil : Closed [] :=
  fun _ _ _ _ => rfl

theorem partsBack_inner {c : Char} (hc : isInner c = true) (depth : Nat) (part : List Char)
    (parts : List (List Char)) (rest : List Char) :
    partsBack depth part parts (c :: rest) = partsBack depth (c :: part) parts rest := by
  simp only [isInner, Bool.and_eq_true, Bool.not_eq_true', bne_iff_ne, ne_eq] at hc
  simp [partsBack, hc]

theorem closed_of_inner {text : List Char} (hinner : text.all isInner = true) : Closed text := by
  induction text with
  | nil => exact closed_nil
  | cons c cs ih =>
      simp only [List.all_cons, Bool.and_eq_true] at hinner
      have hsingle : Closed [c] := fun depth => partsBack_inner hinner.1 depth
      exact hsingle.append (ih hinner.2)

theorem isInner_of_isNameChar {c : Char} (hc : isNameChar c = true) : isInner c = true := by
  by_contra hinner
  simp only [isInner, opens, closes, Bool.and_eq_true, Bool.not_eq_true', bne_iff_ne, ne_eq,
    Bool.or_eq_false_iff, beq_eq_false_iff_ne, not_and_or, Decidable.not_not] at hinner
  rcases hinner with (((rfl | rfl) | rfl) | (rfl | rfl) | rfl) | rfl <;>
    simp [isNameChar, isLetter] at hc

theorem closed_of_names {text : List Char} (htext : text.all isNameChar = true) : Closed text := by
  refine closed_of_inner (List.all_eq_true.mpr fun c hc => ?_)
  exact isInner_of_isNameChar (List.all_eq_true.mp htext c hc)

/-- What stands in brackets may have commas of its own. -/
theorem closed_brackets {opening closing : Char} {inside : List Char}
    (hopens : opens opening = true) (hcloses : closes closing = true)
    (hinside : ∀ depth, ClosedAt (depth + 1) inside) :
    Closed (opening :: inside ++ [closing]) := by
  intro depth part parts rest
  have hnot := closes_eq_false_of_opens hopens
  calc
    partsBack depth part parts ((opening :: inside ++ [closing]).reverse ++ rest) =
        partsBack depth part parts (closing :: (inside.reverse ++ opening :: rest)) := by simp
    _ = partsBack (depth + 1) (closing :: part) parts (inside.reverse ++ opening :: rest) := by
        simp [partsBack, hcloses]
    _ = partsBack (depth + 1) (inside ++ closing :: part) parts (opening :: rest) :=
        hinside depth ..
    _ = partsBack depth (opening :: (inside ++ closing :: part)) parts rest := by
        simp [partsBack, hnot, hopens]
    _ = partsBack depth (opening :: inside ++ [closing] ++ part) parts rest := by simp

theorem closedAt_comma (depth : Nat) : ClosedAt (depth + 1) [',', ' '] := by
  intro part parts rest
  simp [partsBack, closes, opens]

theorem closedAt_commas {texts : List String} (htexts : ∀ text ∈ texts, Closed text.toList)
    (depth : Nat) : ClosedAt (depth + 1) (commas texts).toList := by
  fun_induction commas texts with
  | case1 => exact closed_nil _
  | case2 text => exact htexts text List.mem_cons_self _
  | case3 text next rest ih =>
      obtain ⟨htext, hrest⟩ := List.forall_mem_cons.mp htexts
      rw [String.toList_append, String.toList_append]
      exact ((htext _).append (closedAt_comma depth)).append (ih hrest)

/-- Going back through texts with commas between them sets aside all of them but the first. -/
theorem partsBack_commas {text : String} {texts : List String}
    (htexts : ∀ t ∈ text :: texts, Closed t.toList) (parts : List (List Char))
    (rest : List Char) :
    partsBack 0 [] parts ((commas (text :: texts)).toList.reverse ++ rest) =
      partsBack 0 text.toList (texts.map String.toList ++ parts) rest := by
  obtain ⟨htext, hrest⟩ := List.forall_mem_cons.mp htexts
  induction texts generalizing text rest with
  | nil => simpa [commas] using htext 0 [] parts rest
  | cons next texts ih =>
      obtain ⟨hnext, hmore⟩ := List.forall_mem_cons.mp hrest
      calc
        partsBack 0 [] parts ((commas (text :: next :: texts)).toList.reverse ++ rest) =
            partsBack 0 [] parts ((commas (next :: texts)).toList.reverse ++
              (' ' :: ',' :: (text.toList.reverse ++ rest))) := by simp [commas]
        _ = partsBack 0 next.toList (texts.map String.toList ++ parts)
              (' ' :: ',' :: (text.toList.reverse ++ rest)) := ih hrest _ hnext hmore
        _ = partsBack 0 [] (next.toList :: (texts.map String.toList ++ parts))
              (text.toList.reverse ++ rest) := by simp [partsBack, closes, opens]
        _ = partsBack 0 text.toList ((next :: texts).map String.toList ++ parts) rest := by
            simpa using htext 0 [] (next.toList :: (texts.map String.toList ++ parts)) rest

/-! ## Taking apart -/

/-- The texts of the parts; what is in the brackets is empty if there are none. -/
def partTexts (parts : List (List Char)) : List String :=
  if parts = [[]] then [] else parts.map String.ofList

/-- How a text without a bracket at its end is laid out. -/
def dissectName (text : List Char) : Layout :=
  match text.reverse.dropWhile isNameChar with
  | '.' :: base =>
      .member (String.ofList base.reverse)
        (String.ofList (text.reverse.takeWhile isNameChar).reverse)
  | _ => .plain (String.ofList text)

/-- How a text is laid out. -/
def dissect (text : List Char) : Layout :=
  match text.reverse with
  | [] => .plain (String.ofList text)
  | c :: cs =>
      if closes c then
        match partsBack 0 [] [] cs with
        | some (parts, opening, before) => .group (String.ofList before) opening (partTexts parts) c
        | none => .plain (String.ofList text)
      else dissectName text

/-- The parts can be told from each other, and brackets match in the text that is laid out. -/
inductive Layout.Clear : Layout → Prop
  | group {before : String} {opening : Char} {parts : List String} {closing : Char}
      (hbefore : Closed before.toList) (hopens : opens opening = true)
      (hcloses : closes closing = true)
      (hparts : ∀ part ∈ parts, part ≠ "" ∧ Closed part.toList) :
      Clear (group before opening parts closing)
  | member {base name : String} (hbase : Closed base.toList)
      (hname : name.toList.all isNameChar = true) : Clear (member base name)
  | name {name : String} (hname : name.toList.all isNameChar = true) : Clear (plain name)
  | angle {text : String} (htext : Closed text.toList)
      (hlast : text.toList.getLast? = some '>') : Clear (plain text)

theorem partsBack_group {opening : Char} (hopens : opens opening = true) {parts : List String}
    (hparts : ∀ part ∈ parts, part ≠ "" ∧ Closed part.toList) (before : List Char) :
    ∃ found, partsBack 0 [] [] ((commas parts).toList.reverse ++ opening :: before.reverse) =
      some (found, opening, before) ∧ partTexts found = parts := by
  have hnot := closes_eq_false_of_opens hopens
  cases parts with
  | nil => exact ⟨[[]], by simp [commas, partsBack, hnot, hopens], rfl⟩
  | cons part parts =>
      refine ⟨(part :: parts).map String.toList, ?_, ?_⟩
      · rw [partsBack_commas fun text hmem => (hparts text hmem).2]
        simp [partsBack, hnot, hopens]
      · have hpart : part.toList ≠ [] := by simpa using (hparts part List.mem_cons_self).1
        simp [partTexts, hpart]

theorem dissect_group {before : String} {opening : Char} {parts : List String} {closing : Char}
    (hopens : opens opening = true) (hcloses : closes closing = true)
    (hparts : ∀ part ∈ parts, part ≠ "" ∧ Closed part.toList) :
    dissect (Layout.group before opening parts closing).chars =
      .group before opening parts closing := by
  have hreverse : (Layout.group before opening parts closing).chars.reverse =
      closing :: ((commas parts).toList.reverse ++ opening :: before.toList.reverse) := by
    simp [Layout.chars]
  obtain ⟨found, hfound, htexts⟩ := partsBack_group hopens hparts before.toList
  simp [dissect, hreverse, hcloses, hfound, htexts]

theorem dissect_eq_dissectName {text : List Char}
    (hlast : ∀ c ∈ text.getLast?, closes c = false) : dissect text = dissectName text := by
  rw [List.getLast?_eq_head?_reverse] at hlast
  rw [dissect]
  split
  · simp_all [dissectName]
  next c cs hreverse => simp [hlast c (by simp [hreverse])]

theorem closes_eq_false_of_isNameChar {c : Char} (hc : isNameChar c = true) :
    closes c = false := by
  have hinner := isInner_of_isNameChar hc
  simp only [isInner, Bool.and_eq_true, Bool.not_eq_true'] at hinner
  exact hinner.1.2

theorem dissect_member {base name : String} (hname : name.toList.all isNameChar = true) :
    dissect (Layout.member base name).chars = .member base name := by
  have hlast : ∀ c ∈ (Layout.member base name).chars.getLast?, closes c = false := by
    intro c hc
    rw [Layout.chars, List.getLast?_append_cons] at hc
    rcases List.mem_cons.mp (List.mem_of_getLast? hc) with rfl | hmem
    · rfl
    · exact closes_eq_false_of_isNameChar (List.all_eq_true.mp hname c hmem)
  have hreverse : ∀ c ∈ name.toList.reverse, isNameChar c = true := by simpa using hname
  have hdot : isNameChar '.' = false := by decide
  rw [dissect_eq_dissectName hlast, dissectName, Layout.chars]
  simp [List.dropWhile_append_of_pos hreverse, List.takeWhile_append_of_pos hreverse, hdot]

theorem dissect_name {name : String} (hname : name.toList.all isNameChar = true) :
    dissect name.toList = .plain name := by
  have hlast : ∀ c ∈ name.toList.getLast?, closes c = false := fun c hc =>
    closes_eq_false_of_isNameChar (List.all_eq_true.mp hname c (List.mem_of_getLast? hc))
  have hreverse : name.toList.reverse.dropWhile isNameChar = [] := by
    rw [List.dropWhile_eq_nil_iff]
    simpa using hname
  simp [dissect_eq_dissectName hlast, dissectName, hreverse]

theorem dissect_angle {text : String} (hlast : text.toList.getLast? = some '>') :
    dissect text.toList = .plain text := by
  obtain ⟨front, hfront⟩ := List.getLast?_eq_some_iff.mp hlast
  have hname : isNameChar '>' = false := by decide
  have hcloses : closes '>' = false := by decide
  have hreverse : text.toList.reverse.dropWhile isNameChar = '>' :: front.reverse := by
    simp [hfront, hname]
  rw [dissect_eq_dissectName (by simpa [hlast] using hcloses), dissectName, hreverse]
  simp

theorem Layout.Clear.dissect_chars {layout : Layout} (hclear : layout.Clear) :
    dissect layout.chars = layout := by
  cases hclear with
  | group _ hopens hcloses hparts => exact dissect_group hopens hcloses hparts
  | member _ hname => exact dissect_member hname
  | name hname => exact dissect_name hname
  | angle _ hlast => exact dissect_angle hlast

theorem Layout.Clear.closed {layout : Layout} (hclear : layout.Clear) : Closed layout.chars := by
  cases hclear with
  | group hbefore hopens hcloses hparts =>
      rw [chars, List.append_assoc]
      exact hbefore.append
        (closed_brackets hopens hcloses (closedAt_commas fun part hmem => (hparts part hmem).2))
  | member hbase hname =>
      have hdot : Closed ['.'] := closed_of_inner rfl
      exact hbase.append (hdot.append (closed_of_names hname))
  | name hname => exact closed_of_names hname
  | angle htext => exact htext

/-- A text has at most one clear layout. -/
theorem Layout.Clear.eq_of_chars_eq {layout other : Layout} (hclear : layout.Clear)
    (hother : other.Clear) (heq : layout.chars = other.chars) : layout = other := by
  rw [← hclear.dissect_chars, heq, hother.dissect_chars]

end Rtl.Text
