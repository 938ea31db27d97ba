import ShellAlias.Proofs.Json.Skip
import ShellAlias.Proofs.Settings.Members

namespace ShellAlias

open Json

theorem Truncation.ofName?_eq_some_iff {name : Text} {truncation : Truncation} :
    ofName? name = some truncation ↔ name = truncation.name := by
  constructor
  · intro h
    unfold ofName? at h
    split at h
    · obtain rfl := Option.some.inj h
      assumption
    · split at h
      · obtain rfl := Option.some.inj h
        assumption
      · contradiction
  · rintro rfl
    cases truncation <;> rfl

theorem Member.ofName?_name (member : Member) : ofName? member.name = some member := by
  cases member <;> rfl

theorem Member.ofName?_eq_some_iff {name : Text} {member : Member} :
    ofName? name = some member ↔ name = member.name := by
  constructor
  · intro h
    have hname := List.find?_some h
    exact (of_decide_eq_true hname).symm
  · rintro rfl
    exact member.ofName?_name

theorem Member.name_injective : Function.Injective Member.name := by
  intro member other h
  have hsome := ofName?_eq_some_iff.mpr h
  rw [member.ofName?_name] at hsome
  exact Option.some.inj hsome

theorem Member.ofName?_eq_none_iff {name : Text} :
    ofName? name = none ↔ ∀ member : Member, name ≠ member.name := by
  rw [Option.eq_none_iff_forall_ne_some]
  exact forall_congr' fun member => not_congr ofName?_eq_some_iff

theorem ModeName.ofName?_name (mode : ModeName) : ofName? mode.name = some mode := by
  cases mode <;> rfl

theorem ModeName.capName_ne_memberName : capName ≠ memberName := by decide

namespace ExpansionMode

def capped? (tag name member : Text) (cap : Nat) : Option ExpansionMode :=
  if tag = ModeName.memberName ∧ name = ModeName.name .fixedPoint ∧
      member = ModeName.capName ∧ cap < Nat.pow 2 64 then some (.fixedPoint cap)
  else none

def ofMembers? : List (Text × Scalar) → Option ExpansionMode
  | [(tag, .string name)] =>
    if tag = ModeName.memberName ∧ name = ModeName.name .singlePass then some .singlePass
    else none
  | [(tag, .string name),(member, .natural cap)] => capped? tag name member cap
  | [(member, .natural cap),(tag, .string name)] => capped? tag name member cap
  | _ => none

theorem capped?_eq_some_iff {tag name member : Text} {cap : Nat} {expansion : ExpansionMode} :
    capped? tag name member cap = some expansion ↔ tag = ModeName.memberName ∧
      name = ModeName.name .fixedPoint ∧ member = ModeName.capName ∧ cap < Nat.pow 2 64 ∧
      expansion = .fixedPoint cap := by
  rw [capped?,Option.ite_none_right_eq_some,Option.some.injEq,eq_comm (a := expansion)]
  simp only [and_assoc]

theorem hasValue_of_ofMembers? {members : List (Text × Scalar)} {expansion : ExpansionMode}
    (h : ofMembers? members = some expansion) : expansion.HasValue (.object members) := by
  unfold ofMembers? at h
  split at h
  · obtain ⟨⟨rfl,rfl⟩,⟨⟩⟩ := Option.ite_none_right_eq_some.mp h
    exact .singlePass
  · obtain ⟨rfl,rfl,rfl,hcap,rfl⟩ := capped?_eq_some_iff.mp h
    exact .fixedPoint hcap (.inl rfl)
  · obtain ⟨rfl,rfl,rfl,hcap,rfl⟩ := capped?_eq_some_iff.mp h
    exact .fixedPoint hcap (.inr rfl)
  · contradiction

theorem HasValue.exists_ofMembers? {expansion : ExpansionMode} {value : Value}
    (h : expansion.HasValue value) :
    ∃ members, value = .object members ∧ ofMembers? members = some expansion := by
  cases h with
  | singlePass => exact ⟨_,rfl,rfl⟩
  | fixedPoint hcap horder =>
    refine ⟨_,rfl,?_⟩
    rcases horder with rfl | rfl
    · exact capped?_eq_some_iff.mpr ⟨rfl,rfl,rfl,hcap,rfl⟩
    · exact capped?_eq_some_iff.mpr ⟨rfl,rfl,rfl,hcap,rfl⟩

end ExpansionMode

namespace Settings

def take? (settings : Settings) : Member → Value → Option Settings
  | .maxKeyLength, .scalar (.natural n) =>
    if n < Nat.pow 2 64 then some { settings with maxKeyLength := n } else none
  | .maxValueLength, .scalar (.natural n) =>
    if n < Nat.pow 2 64 then some { settings with maxValueLength := n } else none
  | .truncation, .scalar (.string name) =>
    (Truncation.ofName? name).map fun truncation => { settings with truncation }
  | .expansion, .object members =>
    (ExpansionMode.ofMembers? members).map fun expansion => { settings with expansion }
  | .homeAlias, .scalar (.boolean homeAlias) => some { settings with homeAlias }
  | _, _ => none

theorem take?_eq_some_iff {settings next : Settings} {member : Member} {value : Value} :
    settings.take? member value = some next ↔
      ∃ others : Settings, others.HasValue member value ∧ assign others settings member = next := by
  constructor
  · intro h
    unfold take? at h
    split at h
    · obtain ⟨hn,⟨⟩⟩ := Option.ite_none_right_eq_some.mp h
      exact ⟨{ maxKeyLength := _ },.maxKeyLength hn,rfl⟩
    · obtain ⟨hn,⟨⟩⟩ := Option.ite_none_right_eq_some.mp h
      exact ⟨{ maxValueLength := _ },.maxValueLength hn,rfl⟩
    · obtain ⟨truncation,hname,rfl⟩ := Option.map_eq_some_iff.mp h
      obtain rfl := Truncation.ofName?_eq_some_iff.mp hname
      exact ⟨{ truncation },.truncation,rfl⟩
    · obtain ⟨expansion,hmembers,rfl⟩ := Option.map_eq_some_iff.mp h
      exact ⟨{ expansion },.expansion (ExpansionMode.hasValue_of_ofMembers? hmembers),rfl⟩
    · obtain rfl := Option.some.inj h
      exact ⟨{ homeAlias := _ },.homeAlias,rfl⟩
    · contradiction
  · rintro ⟨others,hvalue,rfl⟩
    cases hvalue with
    | maxKeyLength hn => exact if_pos hn
    | maxValueLength hn => exact if_pos hn
    | truncation =>
      simp only [take?,assign,Truncation.ofName?_eq_some_iff.mpr rfl,Option.map_some]
    | expansion h =>
      obtain ⟨members,rfl,hmembers⟩ := h.exists_ofMembers?
      simp only [take?,assign,hmembers,Option.map_some]
    | homeAlias => rfl

theorem reads_length {n : Nat} (hn : n < naturalBound) : Reads readLength (Text.decimal n) n := by
  intro space rest hs he
  rw [readLength,reads_decimal hn space rest hs he]

theorem reads_boolean (value : Bool) :
    Reads readBoolean (if value then "true".toList else "false".toList) value := by
  intro space rest hs he
  cases value with
  | true => rw [readBoolean,if_pos rfl,reads_true space rest hs he]
  | false => rw [readBoolean,if_neg Bool.false_ne_true,reads_false space rest hs he]

theorem reads_name {α : Type} {ofName? : Text → Option α} (names : Text × Text)
    {written name : Text} {value : α} (hname : IsString written name)
    (hknown : ofName? name = some value) : Reads (readName ofName? names) written value := by
  intro space rest hs he
  simp only [readName,reads_string hname space rest hs he,hknown]

theorem reads_truncation {written : Text} {truncation : Truncation}
    (h : IsString written truncation.name) : Reads readTruncation written truncation := by
  intro space rest hs he
  have hname := reads_name Truncation.names h (Truncation.ofName?_eq_some_iff.mpr rfl)
    space rest hs he
  obtain ⟨spelled,rfl,_⟩ := h
  have hquote : skipSpace (space ++ '"' :: (spelled ++ ['"']) ++ rest) =
      '"' :: (spelled ++ ['"'] ++ rest) := by
    rw [List.append_assoc,skipSpace_append hs]
    exact skipSpace_cons rfl _
  simp only [readTruncation,hquote]
  exact hname

theorem reads_cap {cap depth : Nat} (hcap : cap < naturalBound) :
    Reads (Tree.read depth) (Text.decimal cap) (.number (.natural cap)) := by
  intro space rest hs he
  unfold Tree.read
  rw [reads_decimal hcap space rest hs he]

theorem takesMember_modeName {mode : ModeName} {written : Text} (hn : IsString written mode.name)
    (others : List (Text × Tree)) :
    TakesMember readModePart ⟨none,others⟩ (ModeName.memberName, written) ⟨some mode,others⟩ := by
  intro gap lead rest hg hl he
  have hname := reads_name ModeName.names hn mode.ofName?_name lead rest hl he
  rw [List.append_assoc] at hname
  simp only [readModePart,colon_append hg,hname,Except.map]
  rfl

theorem takesMember_cap {cap : Nat} (hcap : cap < naturalBound) (parts : ModeParts) :
    TakesMember readModePart parts (ModeName.capName, Text.decimal cap)
      { parts with others := parts.others ++ [(ModeName.capName, .number (.natural cap))] } := by
  intro gap lead rest hg hl he
  have hread : Reads (Tree.read (depthLimit - 2)) _ _ := reads_cap hcap
  have hcap := hread lead rest hl he
  rw [List.append_assoc] at hcap
  simp only [readModePart,ModeName.capName_ne_memberName,Tree.readMember,colon_append hg,hcap,
    Except.map]
  rfl

/-- The parts of a mode are read in either order. -/
theorem reads_expansion {expansion : ExpansionMode} {value : Value} {written : Text}
    (h : expansion.HasValue value) (hw : value.IsWritten written) :
    Reads readExpansion written (.ok expansion) := by
  intro space rest hs _
  have hmode {parts : List (Text × Text)} {mode : ModeName} {others : List (Text × Tree)}
      (hobject : IsObject parts written) (htakes : Takes readModePart {} parts ⟨some mode,others⟩) :
      readExpansion (space ++ written ++ rest) = .ok (modeOfMembers mode others, rest) := by
    obtain ⟨body,hwhole,hbody⟩ := hobject.read htakes rest
    rw [List.append_assoc,hwhole]
    simp only [readExpansion,token_openObject hs,hbody]
  cases h with
  | singlePass =>
    obtain ⟨parts,hparts,hobject⟩ := Value.isWritten_object_iff.mp hw
    obtain _ | ⟨⟨hname⟩,_ | _⟩ := hparts
    have hname := takesMember_modeName (Scalar.isWritten_string_iff.mp hname)
    exact hmode hobject (.cons (hname []) (.nil _))
  | fixedPoint hcap horder =>
    obtain ⟨parts,hparts,hobject⟩ := Value.isWritten_object_iff.mp hw
    rcases horder with rfl | rfl
    · obtain _ | ⟨⟨hname⟩,_ | ⟨⟨hlimit⟩,_ | _⟩⟩ := hparts
      obtain rfl := Scalar.isWritten_natural_iff.mp hlimit
      have hname := takesMember_modeName (Scalar.isWritten_string_iff.mp hname)
      exact hmode hobject (.cons (hname []) (.cons (takesMember_cap hcap _) (.nil _)))
    · obtain _ | ⟨⟨hlimit⟩,_ | ⟨⟨hname⟩,_ | _⟩⟩ := hparts
      obtain rfl := Scalar.isWritten_natural_iff.mp hlimit
      have hname := takesMember_modeName (Scalar.isWritten_string_iff.mp hname)
      exact hmode hobject (.cons (takesMember_cap hcap _) (.cons (hname _) (.nil _)))

theorem reads_member {others : Settings} {member : Member} {value : Value} {written : Text}
    (h : others.HasValue member value) (hw : value.IsWritten written) (leave : Text → Text)
    (settings : Settings) :
    Reads (readMember leave settings member) written (assign others settings member) := by
  cases h with
  | maxKeyLength hn =>
    obtain ⟨⟨⟩⟩ := hw
    exact (reads_length hn).map fun n => { settings with maxKeyLength := n }
  | maxValueLength hn =>
    obtain ⟨⟨⟩⟩ := hw
    exact (reads_length hn).map fun n => { settings with maxValueLength := n }
  | truncation =>
    obtain ⟨hname⟩ := hw
    have hname := Scalar.isWritten_string_iff.mp hname
    exact (reads_truncation hname).map fun truncation => { settings with truncation }
  | expansion h =>
    intro space rest hs he
    simp only [readMember,assign,reads_expansion h hw space rest hs he]
  | homeAlias =>
    obtain ⟨⟨⟩⟩ := hw
    exact (reads_boolean others.homeAlias).map fun homeAlias => { settings with homeAlias }

/-- Takes a member after others. A name that has come before is refused. -/
def takeNext? (read : Reading) (member : Text × Value) : Option Reading :=
  match Member.ofName? member.1 with
  | none => some read
  | some known =>
    if known ∈ read.seen then none
    else (read.settings.take? known member.2).map fun settings => ⟨settings,known :: read.seen⟩

def takeAll? (members : List (Text × Value)) : Option Settings :=
  (members.foldlM takeNext? {}).map Reading.settings

theorem takesMember_of_takeNext? {read next : Reading} {member : Text × Value}
    {part : Text × Text} (hnamed : IsNamed Value.IsWritten member part)
    (h : takeNext? read member = some next) : TakesMember readNamed read part next := by
  intro gap lead rest hg hl he
  obtain @⟨name,written,value,hwritten⟩ := hnamed
  cases hname : Member.ofName? name with
  | none =>
    simp only [takeNext?,hname,Option.some.injEq] at h
    subst h
    simp only [readNamed,hname,colon_append hg,hwritten.derives.skip hl he,Except.map]
  | some known =>
    simp only [takeNext?,hname,Option.ite_none_left_eq_some] at h
    obtain ⟨hfresh,h⟩ := h
    obtain ⟨settings,htaken,rfl⟩ := Option.map_eq_some_iff.mp h
    obtain ⟨others,hvalue,rfl⟩ := take?_eq_some_iff.mp htaken
    have hread := reads_member hvalue hwritten leaveObject read.settings lead rest hl he
    rw [List.append_assoc] at hread
    simp only [readNamed,hname,hfresh,colon_append hg,hread,Except.map]
    rfl

theorem takes_of_foldlM {members : List (Text × Value)} {parts : List (Text × Text)}
    (hnamed : List.Forall₂ (IsNamed Value.IsWritten) members parts) {read last : Reading}
    (h : members.foldlM takeNext? read = some last) : Takes readNamed read parts last := by
  induction hnamed generalizing read with
  | nil =>
    obtain rfl := Option.some.inj h
    exact .nil _
  | cons hfirst _ ih =>
    rw [List.foldlM_cons] at h
    obtain ⟨next,hnext,hothers⟩ := Option.bind_eq_some_iff.mp h
    exact .cons (takesMember_of_takeNext? hfirst hnext) (ih hothers)

theorem json_readsObjects : json.ReadsObjects takeAll? := by
  intro members settings before object after htaken hb hobject ha
  obtain ⟨last,hlast,rfl⟩ := Option.map_eq_some_iff.mp htaken
  obtain ⟨parts,hnamed,hobject⟩ := hobject
  obtain ⟨body,hwhole,hbody⟩ := hobject.read (takes_of_foldlM hnamed hlast) after
  have hend : skipSpace after = [] := by
    simpa [skipSpace] using skipSpace_append ha []
  have hread : readSettings (before ++ (object ++ after)) = .ok (last.settings, after) := by
    rw [hwhole]
    simp only [readSettings,token_openObject hb,hbody,Except.map]
  simp only [json,parse,hread,hend]

theorem seen_of_foldlM {members : List (Text × Value)} {read last : Reading}
    (h : members.foldlM takeNext? read = some last) {member : Member} (hm : member ∈ last.seen) :
    member ∈ read.seen ∨ member.name ∈ members.map Prod.fst := by
  induction members generalizing read with
  | nil =>
    obtain rfl := Option.some.inj h
    exact .inl hm
  | cons first members ih =>
    rw [List.foldlM_cons] at h
    obtain ⟨next,hnext,hothers⟩ := Option.bind_eq_some_iff.mp h
    rcases ih hothers with hseen | hlater
    · unfold takeNext? at hnext
      split at hnext
      · obtain rfl := Option.some.inj hnext
        exact .inl hseen
      · rename_i known hname
        obtain ⟨_,hnext⟩ := Option.ite_none_left_eq_some.mp hnext
        obtain ⟨_,_,rfl⟩ := Option.map_eq_some_iff.mp hnext
        rcases List.mem_cons.mp hseen with rfl | hseen
        · rw [← Member.ofName?_eq_some_iff.mp hname]
          exact .inr List.mem_cons_self
        · exact .inl hseen
    · exact .inr (List.mem_cons_of_mem _ hlater)

theorem takeAll?_takesMembers : TakesMembers takeAll? where
  none := rfl
  unknown members name value hother := by
    have hname := Member.ofName?_eq_none_iff.mpr hother
    simp [takeAll?,List.foldlM_append,takeNext?,hname]
  known members settings others member value htaken hfresh hvalue := by
    obtain ⟨last,hlast,rfl⟩ := Option.map_eq_some_iff.mp htaken
    have hunseen : member ∉ last.seen := by
      intro hm
      rcases seen_of_foldlM hlast hm with hm | hm
      · contradiction
      · exact hfresh hm
    have htake : last.settings.take? member value = some (assign others last.settings member) :=
      take?_eq_some_iff.mpr ⟨others,hvalue,rfl⟩
    simp [takeAll?,List.foldlM_append,hlast,takeNext?,member.ofName?_name,hunseen,htake]

end Settings
end ShellAlias
