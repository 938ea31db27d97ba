import Mathlib.Data.List.Nodup
import ShellAlias.CommandLine
import ShellAlias.Proofs.Settings.Described
import ShellAlias.Proofs.Settings.Layout

namespace ShellAlias

open Json

theorem Truncation.isPlain_name (truncation : Truncation) : IsPlain truncation.name := by
  cases truncation <;> decide

theorem Member.isPlain_name (member : Member) : IsPlain member.name := by
  cases member <;> decide

theorem Member.mem_all (member : Member) : member ∈ all := by
  cases member <;> decide

theorem Member.nodup_names : (all.map name).Nodup := by decide

namespace ModeName

theorem isPlain_name (mode : ModeName) : IsPlain mode.name := by
  cases mode <;> decide

theorem isPlain_memberName : IsPlain memberName := by decide

theorem isPlain_capName : IsPlain capName := by decide

end ModeName

namespace ExpansionMode

def members : ExpansionMode → List (Text × Scalar)
  | .singlePass => [(ModeName.memberName, .string (ModeName.name .singlePass))]
  | .fixedPoint cap =>
    [(ModeName.memberName, .string (ModeName.name .fixedPoint)),(ModeName.capName, .natural cap)]

theorem isObjectOf_parts (layout : Layout) (depth : Nat) (expansion : ExpansionMode) :
    IsObjectOf Scalar.IsWritten expansion.members (layout.object depth expansion.parts) := by
  cases expansion with
  | singlePass =>
    have hname := (ModeName.isPlain_name .singlePass).isString
    exact ⟨_,.cons (.named (.string hname)) .nil,
      layout.isObject_object depth (List.forall_mem_singleton.mpr ModeName.isPlain_memberName)⟩
  | fixedPoint cap =>
    have hname := (ModeName.isPlain_name .fixedPoint).isString
    exact ⟨_,.cons (.named (.string hname)) (.cons (.named (.natural cap)) .nil),
      layout.isObject_object depth (List.forall_mem_cons.mpr ⟨ModeName.isPlain_memberName,
        List.forall_mem_singleton.mpr ModeName.isPlain_capName⟩)⟩

end ExpansionMode

namespace Settings

def value (settings : Settings) : Member → Value
  | .maxKeyLength => .scalar (.natural settings.maxKeyLength)
  | .maxValueLength => .scalar (.natural settings.maxValueLength)
  | .truncation => .scalar (.string settings.truncation.name)
  | .expansion => .object settings.expansion.members
  | .homeAlias => .scalar (.boolean settings.homeAlias)

def giveAll (settings : Settings) : List (Text × Value) :=
  Member.all.map fun member => (member.name, settings.value member)

theorem hasValue_value {settings : Settings} (h : settings.Representable) (member : Member) :
    settings.HasValue member (settings.value member) := by
  cases member with
  | maxKeyLength => exact .maxKeyLength h.key
  | maxValueLength => exact .maxValueLength h.value
  | truncation => exact .truncation
  | expansion =>
    refine .expansion ?_
    rw [value]
    cases hmode : settings.expansion with
    | singlePass => exact .singlePass
    | fixedPoint cap => exact .fixedPoint (h.cap cap hmode) (.inl rfl)
  | homeAlias => exact .homeAlias

theorem giveAll_givesMembers : GivesMembers giveAll where
  names settings := by
    rw [giveAll,List.map_map]
    rfl
  values settings h member given hm := by
    obtain ⟨other,_,he⟩ := List.mem_map.mp hm
    obtain ⟨hname,rfl⟩ := Prod.mk.inj he
    obtain rfl := Member.name_injective hname
    exact hasValue_value h _

theorem isWritten_written (settings : Settings) (layout : Layout) (member : Member) :
    (settings.value member).IsWritten (settings.written layout member) := by
  cases member with
  | maxKeyLength => exact .scalar (.natural _)
  | maxValueLength => exact .scalar (.natural _)
  | truncation => exact .scalar (.string settings.truncation.isPlain_name.isString)
  | expansion => exact .object (settings.expansion.isObjectOf_parts layout 1)
  | homeAlias => exact .scalar (.boolean _)

theorem json_writesObjects : json.WritesObjects giveAll := by
  intro layout settings _
  refine ⟨Member.all.map fun member => (member.name, settings.written layout member),?_,?_⟩
  · rw [giveAll,List.forall₂_map_left_iff,List.forall₂_map_right_iff,List.forall₂_same]
    intro member _
    exact .named (isWritten_written settings layout member)
  · refine layout.isObject_object 0 fun part hm => ?_
    obtain ⟨member,_,rfl⟩ := List.mem_map.mp hm
    exact member.isPlain_name

variable {format : Format} {take? : List (Text × Value) → Option Settings}
  {give : Settings → List (Text × Value)}

theorem GivesMembers.describes (gives : GivesMembers give) {settings : Settings}
    (h : settings.Representable) : settings.Describes (give settings) where
  once := by
    intro member
    rw [gives.names]
    exact List.nodup_iff_count_le_one.mp Member.nodup_names member.name
  known := gives.values settings h

/-- All members are given, so nothing is left of the defaults. -/
theorem read_written (takes : TakesMembers take?) (reads : format.ReadsObjects take?)
    (gives : GivesMembers give) (writes : format.WritesObjects give) {settings : Settings}
    (h : settings.Representable) (layout : Layout) {space : Text} (hs : IsSpace space) :
    format.read (format.write layout settings ++ space) = .ok settings := by
  have htaken := takes.take?_eq (gives.describes h)
  rw [gives.names,override_of_forall fun member => List.mem_map_of_mem member.mem_all] at htaken
  exact reads _ _ [] _ space htaken isSpace_nil (writes layout settings h) hs

/-- Settings that are written to a file, in either layout or as the command line
shows them, are loaded from it as they were. -/
theorem load_written (takes : TakesMembers take?) (reads : format.ReadsObjects take?)
    (gives : GivesMembers give) (writes : format.WritesObjects give) {settings : Settings}
    (h : settings.Representable) (path : Text) :
    (∀ layout, format.load path (.content (Text.bytes (format.write layout settings))) =
        .ok settings) ∧
      ∀ around : CommandLine.Surroundings, around.arguments = ["--settings".toList] →
        CommandLine.loadSettings format around = .ok settings →
        let shown := CommandLine.runWith format around
        shown.code = 0 ∧ format.load path (.content (Text.bytes shown.out)) = .ok settings := by
  constructor
  · intro layout
    have hread := read_written takes reads gives writes h layout isSpace_nil
    rw [List.append_nil] at hread
    exact Format.load_of_read hread path
  · intro around harguments hload shown
    have hshown : shown = { out := Text.line (format.write .indented settings) } := by
      have hcommand : CommandLine.Command.ofArguments around.arguments = .ok .settings := by
        rw [harguments]
        rfl
      simp only [shown,CommandLine.runWith,hcommand,hload]
    -- What is shown has a line end behind it, which a reader passes as space.
    have hfeed : IsSpace ['\n'] := List.forall_mem_singleton.mpr rfl
    rw [hshown]
    exact ⟨rfl,Format.load_of_read (read_written takes reads gives writes h .indented hfeed) path⟩

theorem loadSettings_of_load {around : CommandLine.Surroundings} {home : Text}
    {settings : Settings} (hhome : around.home = some (Text.bytes home))
    (hload : format.load (Home.settingsPath home) (around.file (Home.settingsPath home)) =
      .ok settings) : CommandLine.loadSettings format around = .ok settings := by
  have hdecoded : Home.ofEnvironment around.home = some home := by
    rw [hhome]
    exact Text.ofBytes?_bytes home
  simp only [CommandLine.loadSettings,hdecoded,hload]

theorem load_written_extreme :
    let settings : Settings := ⟨0,Nat.pow 2 64 - 1,.reject,.fixedPoint (Nat.pow 2 64 - 1),false⟩
    let around : CommandLine.Surroundings :=
      { arguments := ["--settings".toList], home := some (Text.bytes "/home/u".toList)
        file := fun _ => .content (Text.bytes (settings.print .compact)), input := [] }
    settings.Representable ∧ CommandLine.loadSettings json around = .ok settings ∧
      load [] (.content (Text.bytes (CommandLine.run around).out)) = .ok settings := by
  intro settings around
  have h : settings.Representable := by
    have hlast : Nat.pow 2 64 - 1 < Nat.pow 2 64 := by decide
    refine ⟨Nat.zero_lt_of_lt hlast,hlast,?_⟩
    intro cap hcap
    cases hcap
    exact hlast
  have hwritten := load_written takeAll?_takesMembers json_readsObjects giveAll_givesMembers
    json_writesObjects h
  have hload : CommandLine.loadSettings json around = .ok settings :=
    loadSettings_of_load rfl ((hwritten _).1 .compact)
  exact ⟨h,hload,((hwritten []).2 around rfl hload).2⟩

end Settings
end ShellAlias
