import ShellAlias.Proofs.Json.Object
import ShellAlias.Settings.Printer

namespace ShellAlias.Layout

open Json

def gap : Layout → Text
  | .compact => []
  | .indented => [' ']

def part (layout : Layout) (depth : Nat) (named : Text × Text) : Text :=
  layout.newline (depth + 1) ++ string named.1 ++ layout.colon ++ named.2

variable (layout : Layout) (depth : Nat)

theorem isSpace_newline : IsSpace (layout.newline depth) := by
  cases layout with
  | compact => simp [IsSpace,newline]
  | indented =>
    refine List.forall_mem_cons.mpr ⟨rfl,?_⟩
    intro c hc
    rw [List.eq_of_mem_replicate hc]
    rfl

theorem isSpace_gap : IsSpace layout.gap := by
  cases layout <;> simp [IsSpace,gap,isSpace]

theorem colon_eq : layout.colon = ':' :: layout.gap := by
  cases layout <;> rfl

theorem isMember_part {named : Text × Text} (hname : IsPlain named.1) {after : Text}
    (ha : IsSpace after) : IsMember named (layout.part depth named ++ after) := by
  have hwhole : layout.part depth named ++ after =
      layout.newline (depth + 1) ++
        (string named.1 ++ ([] ++ ':' :: (layout.gap ++ (named.2 ++ after)))) := by
    simp [part,colon_eq]
  rw [hwhole]
  exact .parts (layout.isSpace_newline _) hname.isString isSpace_nil layout.isSpace_gap ha

theorem isMembers_parts {first : Text × Text} {others : List (Text × Text)}
    (hnames : ∀ named ∈ first :: others, IsPlain named.1) {after : Text} (ha : IsSpace after) :
    IsMembers (first :: others)
      (List.intercalate [','] ((first :: others).map (layout.part depth)) ++ after) := by
  obtain ⟨hfirst,hothers⟩ := List.forall_mem_cons.mp hnames
  induction others generalizing first with
  | nil =>
    rw [List.map_singleton,List.intercalate_singleton]
    exact .last (layout.isMember_part depth hfirst ha)
  | cons second others ih =>
    obtain ⟨hsecond,hrest⟩ := List.forall_mem_cons.mp hothers
    have hmember := layout.isMember_part depth hfirst isSpace_nil
    have hnext := IsMembers.next hmember (ih hothers hsecond hrest)
    simpa [List.intercalate_cons_cons] using hnext

/-- An object that is printed in a layout is one. -/
theorem isObject_object {parts : List (Text × Text)}
    (hnames : ∀ named ∈ parts, IsPlain named.1) : IsObject parts (layout.object depth parts) := by
  have hspace := layout.isSpace_newline depth
  cases parts with
  | nil => exact .empty hspace
  | cons first others =>
    exact .filled (layout.isMembers_parts depth hnames hspace)

end ShellAlias.Layout
