import Mathlib.Data.List.Induction
import ShellAlias.Proofs.Settings.Reader

namespace ShellAlias.Settings

open Json

def override (settings others : Settings) (given : Member → Prop) [DecidablePred given] :
    Settings where
  maxKeyLength := if given .maxKeyLength then others.maxKeyLength else settings.maxKeyLength
  maxValueLength := if given .maxValueLength then others.maxValueLength else settings.maxValueLength
  truncation := if given .truncation then others.truncation else settings.truncation
  expansion := if given .expansion then others.expansion else settings.expansion
  homeAlias := if given .homeAlias then others.homeAlias else settings.homeAlias

theorem override_of_forall {settings others : Settings} {given : Member → Prop}
    [DecidablePred given] (h : ∀ member, given member) :
    settings.override others given = others := by
  simp only [override,h,if_true]

theorem override_congr {settings others : Settings} {given more : Member → Prop}
    [DecidablePred given] [DecidablePred more] (h : ∀ member, more member ↔ given member) :
    settings.override others more = settings.override others given := by
  simp only [override,h]

theorem assign_override {settings others : Settings} {member : Member} {given more : Member → Prop}
    [DecidablePred given] [DecidablePred more]
    (h : ∀ other, more other ↔ given other ∨ other = member) :
    assign others (settings.override others given) member = settings.override others more := by
  cases member <;> simp [assign,override,h]

/-- The members of an object as a settings file may have them: those with a known name once
each and with a value that stands for what settings have, in any order and among any
others. -/
structure Describes (settings : Settings) (members : List (Text × Value)) : Prop where
  once : ∀ member : Member, (members.map Prod.fst).count member.name ≤ 1
  known : ∀ (member : Member) (value : Value), (member.name, value) ∈ members →
    settings.HasValue member value

theorem Describes.left {others : Settings} {members later : List (Text × Value)}
    (h : others.Describes (members ++ later)) : others.Describes members where
  once := by
    intro member
    have honce := h.once member
    rw [List.map_append,List.count_append] at honce
    omega
  known := by
    intro member value hm
    exact h.known member value (List.mem_append_left _ hm)

theorem Describes.fresh {others : Settings} {members : List (Text × Value)} {member : Member}
    {value : Value} (h : others.Describes (members ++ [(member.name, value)])) :
    member.name ∉ members.map Prod.fst := by
  intro hm
  have honce := h.once member
  have hbefore := List.count_pos_iff.mpr hm
  rw [List.map_append,List.map_singleton,List.count_append,List.count_singleton_self] at honce
  omega

/-- The members are taken in turn: each known one sets what the settings have that they
describe, and all others are passed. -/
theorem TakesMembers.take?_eq {take? : List (Text × Value) → Option Settings}
    (takes : TakesMembers take?) {others : Settings} {members : List (Text × Value)}
    (h : others.Describes members) :
    take? members = some (override {} others fun member => member.name ∈ members.map Prod.fst) := by
  induction members using List.reverseRecOn with
  | nil => exact takes.none
  | append_singleton members last ih =>
    have hbefore := ih h.left
    obtain ⟨name,value⟩ := last
    cases hname : Member.ofName? name with
    | none =>
      have hother := Member.ofName?_eq_none_iff.mp hname
      rw [takes.unknown members name value hother,hbefore]
      refine congrArg some (override_congr fun member => ?_)
      simp [(hother member).symm]
    | some member =>
      obtain rfl := Member.ofName?_eq_some_iff.mp hname
      have hvalue := h.known member value (by simp)
      rw [takes.known members _ others member value hbefore h.fresh hvalue]
      refine congrArg some (assign_override fun other => ?_)
      simp [Member.name_injective.eq_iff]

/-- A settings file is read member by member. Its known members, in any order and with any
space between them, give their values, unknown ones with whatever value are passed, and what
is not there has its default. -/
theorem load_described {format : Format} {take? : List (Text × Value) → Option Settings}
    (takes : TakesMembers take?) (reads : format.ReadsObjects take?) {others : Settings}
    {members : List (Text × Value)} (h : others.Describes members) {before object after : Text}
    (hb : IsSpace before) (hobject : IsObjectOf Value.IsWritten members object)
    (ha : IsSpace after) (path : Text) :
    format.load path (.content (Text.bytes (before ++ (object ++ after)))) =
      .ok (override {} others fun member => member.name ∈ members.map Prod.fst) :=
  Format.load_of_read (reads members _ before object after (takes.take?_eq h) hb hobject ha) path

/-- A number that is too large for any number, brackets and half a surrogate pair in the
strings of a nested value. -/
theorem derives_nested :
    Derives .value "[1e999,\x7b\"\\ud800\":\"]\\\"\"\x7d]".toList := by
  have hlarge : IsNumber ([] ++ (['1'] ++ ([] ++ 'e' :: ([] ++ ['9','9','9'])))) :=
    .parts (.inl rfl) (.inr (by decide)) .none (.power (.inl rfl) (.inl rfl) (by decide))
  have hunit : IsUnit ['d','8','0','0'] 0xD800 :=
    .digits (show IsHexDigit 'd' 13 by decide) (show IsHexDigit '8' 8 by decide)
      (show IsHexDigit '0' 0 by decide) (show IsHexDigit '0' 0 by decide)
  have hname : IsBody ('\\' :: 'u' :: (['d','8','0','0'] ++ [])) := .unit hunit .nil
  have hbody : IsBody [']','\\','"'] :=
    .plain (by decide) (.short (show ('"', '"') ∈ shortEscapes by decide) .nil)
  have hinner := Derives.filled (.last (.object isSpace_nil hname isSpace_nil) isSpace_nil
    (.string hbody) isSpace_nil)
  exact .filled (.next .list isSpace_nil (.number hlarge) isSpace_nil
    (.last .list isSpace_nil hinner isSpace_nil))

theorem isObjectOf_capped :
    IsObjectOf Scalar.IsWritten
      [(ModeName.capName, .natural 4),(ModeName.memberName, .string (ModeName.name .fixedPoint))]
      "\x7b\"max_passes\":4,\"mode\":\"fixed_point\"\x7d".toList := by
  have hname : IsPlain (ModeName.name .fixedPoint) := by decide
  have hfirst : IsPlain ModeName.capName := by decide
  have hlast : IsPlain ModeName.memberName := by decide
  have hcap := @IsMember.parts _ _ _ _ _ ['4'] _ isSpace_nil hfirst.isString isSpace_nil
    isSpace_nil isSpace_nil
  have hmode := @IsMember.parts _ _ _ _ _ ('"' :: (ModeName.name .fixedPoint ++ ['"'])) _
    isSpace_nil hlast.isString isSpace_nil isSpace_nil isSpace_nil
  exact ⟨_,.cons (.named (.natural 4)) (.cons (.named (.string hname.isString)) .nil),
    .filled (.next hcap (.last hmode))⟩

theorem isMember_nested :
    IsMember (['a','\x7d'], "[1e999,\x7b\"\\ud800\":\"]\\\"\"\x7d]".toList)
      "\"a\\u007d\" : [1e999,\x7b\"\\ud800\":\"]\\\"\"\x7d]".toList := by
  have hblank : IsSpace [' '] := List.forall_mem_singleton.mpr rfl
  have hunit : IsUnit ['0','0','7','d'] 0x7D :=
    .digits (show IsHexDigit '0' 0 by decide) (show IsHexDigit '0' 0 by decide)
      (show IsHexDigit '7' 7 by decide) (show IsHexDigit 'd' 13 by decide)
  have hname : IsString "\"a\\u007d\"".toList ['a','\x7d'] :=
    ⟨_,rfl,.plain (by decide) (.unit hunit (.inl (by decide)) .nil)⟩
  exact .parts isSpace_nil hname hblank hblank isSpace_nil

theorem isMember_length :
    IsMember (Member.name .maxKeyLength, Text.decimal 7) "\"max\\u005Fkey_len\":7 ".toList := by
  have hblank : IsSpace [' '] := List.forall_mem_singleton.mpr rfl
  have hunit : IsUnit ['0','0','5','F'] 0x5F :=
    .digits (show IsHexDigit '0' 0 by decide) (show IsHexDigit '0' 0 by decide)
      (show IsHexDigit '5' 5 by decide) (show IsHexDigit 'F' 15 by decide)
  have htail : IsPlain "key_len".toList := by decide
  have hname : IsString "\"max\\u005Fkey_len\"".toList (Member.name .maxKeyLength) :=
    ⟨_,rfl,.plain (by decide) (.plain (by decide) (.plain (by decide)
      (.unit hunit (.inl (by decide)) htail.spells)))⟩
  exact .parts isSpace_nil hname isSpace_nil isSpace_nil hblank

theorem describes_capped :
    Describes ⟨7,0,.reject,.fixedPoint 4,false⟩
      [(['a','\x7d'], .any),(Member.name .maxKeyLength, .scalar (.natural 7)),
        (Member.name .expansion, .object [(ModeName.capName, .natural 4),
          (ModeName.memberName, .string (ModeName.name .fixedPoint))]),
        (Member.name .homeAlias, .scalar (.boolean false))] where
  once := by
    intro member
    cases member <;> decide
  known := by
    intro member value hm
    simp only [List.mem_cons,List.not_mem_nil,or_false,Prod.mk.injEq] at hm
    rcases hm with ⟨hname,_⟩ | ⟨hname,rfl⟩ | ⟨hname,rfl⟩ | ⟨hname,rfl⟩
    · cases member <;> exact absurd hname (by decide)
    · obtain rfl := Member.name_injective hname
      exact .maxKeyLength (by decide)
    · obtain rfl := Member.name_injective hname
      exact .expansion (.fixedPoint (by decide) (.inr rfl))
    · obtain rfl := Member.name_injective hname
      exact .homeAlias

/-- Names with escapes, a nested value that is passed, and a cap before the name of its
mode. -/
theorem load_described_nested :
    let unknown := "\"a\\u007d\" : [1e999,\x7b\"\\ud800\":\"]\\\"\"\x7d]".toList
    let length := "\"max\\u005Fkey_len\":7 ".toList
    let expansion := "\"expansion\":\x7b\"max_passes\":4,\"mode\":\"fixed_point\"\x7d".toList
    let home := "\t\"home_alias\":false".toList
    let object :=
      '\x7b' :: (unknown ++ ',' :: (length ++ ',' :: (expansion ++ ',' :: home)) ++ ['\x7d'])
    TakesMembers takeAll? ∧ json.ReadsObjects takeAll? ∧
      load [] (.content (Text.bytes (['\n'] ++ (object ++ [' '])))) =
        .ok ⟨7,200,.truncate,.fixedPoint 4,false⟩ := by
  intro unknown length expansion home object
  have hexpansion : IsMember (Member.name .expansion,
      "\x7b\"max_passes\":4,\"mode\":\"fixed_point\"\x7d".toList) expansion := by
    have hname : IsPlain (Member.name .expansion) := by decide
    exact .parts isSpace_nil hname.isString isSpace_nil isSpace_nil isSpace_nil
  have hhome : IsMember (Member.name .homeAlias, "false".toList) home := by
    have hname : IsPlain (Member.name .homeAlias) := by decide
    have htab : IsSpace ['\t'] := List.forall_mem_singleton.mpr rfl
    exact .parts htab hname.isString isSpace_nil isSpace_nil isSpace_nil
  have hobject : IsObjectOf Value.IsWritten _ object :=
    ⟨_,.cons (.named (.any derives_nested)) (.cons (.named (.scalar (.natural 7)))
      (.cons (.named (.object isObjectOf_capped))
        (.cons (.named (.scalar (.boolean false))) .nil))),
      .filled (.next isMember_nested (.next isMember_length (.next hexpansion (.last hhome))))⟩
  refine ⟨takeAll?_takesMembers,json_readsObjects,?_⟩
  exact load_described takeAll?_takesMembers json_readsObjects describes_capped
    (List.forall_mem_singleton.mpr rfl) hobject (List.forall_mem_singleton.mpr rfl) []

end ShellAlias.Settings
