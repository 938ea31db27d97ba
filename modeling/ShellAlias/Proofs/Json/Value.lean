import Mathlib.Data.List.Forall2
import ShellAlias.Proofs.Json.Grammar
import ShellAlias.Proofs.Json.Object

namespace ShellAlias.Json

inductive Scalar where
  | natural (n : Nat)
  | boolean (value : Bool)
  | string (text : Text)
  deriving DecidableEq, Repr

/-- What is known of a value: that it is a scalar or an object of them, or nothing. -/
inductive Value where
  | scalar (value : Scalar)
  | object (members : List (Text × Scalar))
  | any
  deriving DecidableEq, Repr

inductive Scalar.IsWritten : Scalar → Text → Prop where
  | natural (n : Nat) : IsWritten (.natural n) (Text.decimal n)
  | boolean (value : Bool) :
      IsWritten (.boolean value) (if value then "true".toList else "false".toList)
  | string {text written : Text} (h : IsString written text) : IsWritten (.string text) written

/-- A member by what it says, and by what is written for its value. -/
inductive IsNamed {α : Type} (written : α → Text → Prop) : Text × α → Text × Text → Prop where
  | named {name text : Text} {value : α} (h : written value text) :
      IsNamed written (name, value) (name, text)

def IsObjectOf {α : Type} (written : α → Text → Prop) (members : List (Text × α))
    (text : Text) : Prop :=
  ∃ parts, List.Forall₂ (IsNamed written) members parts ∧ IsObject parts text

inductive Value.IsWritten : Value → Text → Prop where
  | scalar {value : Scalar} {text : Text} (h : value.IsWritten text) :
      IsWritten (.scalar value) text
  | object {members : List (Text × Scalar)} {text : Text}
      (h : IsObjectOf Scalar.IsWritten members text) : IsWritten (.object members) text
  | any {text : Text} (h : Derives .value text) : IsWritten .any text

theorem Scalar.isWritten_natural_iff {n : Nat} {text : Text} :
    (natural n).IsWritten text ↔ text = Text.decimal n := by
  constructor
  · rintro ⟨⟩
    rfl
  · rintro rfl
    exact .natural n

theorem Scalar.isWritten_string_iff {text written : Text} :
    (string text).IsWritten written ↔ IsString written text := by
  constructor
  · rintro ⟨⟩
    assumption
  · exact .string

theorem Value.isWritten_object_iff {members : List (Text × Scalar)} {text : Text} :
    (object members).IsWritten text ↔ IsObjectOf Scalar.IsWritten members text := by
  constructor
  · rintro ⟨⟩
    assumption
  · exact .object

theorem isNumber_decimal (n : Nat) : IsNumber (Text.decimal n) := by
  have hwhole : IsWhole (Text.decimal n) := by
    obtain ⟨c,places,he,_,hzero⟩ := exists_decimal n
    rcases Nat.eq_zero_or_pos n with rfl | hpos
    · exact Or.inl rfl
    · refine Or.inr ⟨⟨by simp [he],fun _ => isDigit_of_mem_decimal⟩,?_⟩
      rw [he,List.head?_cons,ne_eq,Option.some.injEq]
      exact fun hc => Nat.ne_of_gt hpos (hzero hc)
  have hnumber := IsNumber.parts (.inl rfl) hwhole .none .none
  simpa using hnumber

theorem Spells.isBody {written text : Text} (h : Spells written text) : IsBody written := by
  induction h with
  | nil => exact .nil
  | plain hc _ ih => exact .plain hc ih
  | short hc _ ih => exact .short hc ih
  | unit hn _ _ ih => exact .unit hn ih
  | pair hfirst _ hsecond _ _ ih => exact .unit hfirst (.unit hsecond ih)

theorem Scalar.IsWritten.derives {value : Scalar} {text : Text} (h : value.IsWritten text) :
    Derives .value text := by
  cases h with
  | natural n => exact .number (isNumber_decimal n)
  | boolean value =>
    apply Derives.word
    cases value <;> decide
  | string h =>
    obtain ⟨spelled,rfl,hspelled⟩ := h
    exact .string hspelled.isBody

theorem IsMember.exists_label {named : Text × Text} {text : Text} (h : IsMember named text) :
    ∃ label before after, IsLabel .object label ∧ IsSpace before ∧ IsSpace after ∧
      text = label ++ (before ++ (named.2 ++ after)) := by
  cases h with
  | @parts before quoted _ gap lead _ after hb hn hg hl ha =>
    obtain ⟨spelled,rfl,hspelled⟩ := hn
    refine ⟨_,lead,after,.object hb hspelled.isBody hg,hl,ha,?_⟩
    simp

/-- An object is a value if its members have values. -/
theorem IsObject.derives {parts : List (Text × Text)} {text : Text} (h : IsObject parts text)
    (hvalues : ∀ part ∈ parts, Derives .value part.2) : Derives .value text := by
  cases h with
  | empty hs => exact .empty .object hs
  | @filled _ text h =>
    refine @Derives.filled .object _ ?_
    induction h with
    | last h =>
      obtain ⟨label,before,after,hl,hb,ha,rfl⟩ := h.exists_label
      exact .last hl hb (hvalues _ List.mem_cons_self) ha
    | @next named parts text others h _ ih =>
      obtain ⟨hfirst,hothers⟩ := List.forall_mem_cons.mp hvalues
      obtain ⟨label,before,after,hl,hb,ha,rfl⟩ := h.exists_label
      have hnext := Derives.next hl hb hfirst ha (ih hothers)
      simpa using hnext

theorem Value.IsWritten.derives {value : Value} {text : Text} (h : value.IsWritten text) :
    Derives .value text := by
  cases h with
  | scalar h => exact h.derives
  | object h =>
    obtain ⟨parts,hparts,hobject⟩ := h
    refine hobject.derives ?_
    clear hobject
    induction hparts with
    | nil => exact List.forall_mem_nil _
    | cons hnamed _ ih =>
      obtain ⟨hwritten⟩ := hnamed
      exact List.forall_mem_cons.mpr ⟨hwritten.derives,ih⟩
  | any h => exact h

end ShellAlias.Json
