import ShellAlias.Proofs.Expansion.Iterated

namespace ShellAlias.Expansion

/-- The passes of a run, each with the text that it starts from. None follows one
that replaces nothing. -/
def passesMade (pass : Text → Pass) : Nat → Text → List (Text × Pass)
  | 0, _ => []
  | n + 1, text =>
    (text, pass text) ::
      if (pass text).substitutions = 0 then [] else passesMade pass n (pass text).text

section
variable {pass : Text → Pass} {n : Nat} {text : Text}

theorem visits_repeatPass (pass : Text → Pass) (n : Nat) (text : Text) :
    (repeatPass pass n text).visits =
      (passesMade pass n text).flatMap fun made => made.2.visits := by
  induction n generalizing text with
  | zero => rfl
  | succ n ih =>
    rw [repeatPass,passesMade,List.flatMap_cons]
    split
    · simp
    · exact congrArg ((pass text).visits ++ ·) (ih (pass text).text)

theorem passesMade_made {made : Text × Pass} (hm : made ∈ passesMade pass n text) :
    made.2 = pass made.1 := by
  induction n generalizing text with
  | zero => simp [passesMade] at hm
  | succ n ih =>
    rw [passesMade] at hm
    rcases List.mem_cons.mp hm with rfl | hm
    · rfl
    · split at hm
      · contradiction
      · exact ih hm

/-- A run has settled as soon as one of its passes replaces nothing. -/
theorem settled_of_idle {made : Text × Pass} (hm : made ∈ passesMade pass n text)
    (idle : made.2.substitutions = 0) : (repeatPass pass n text).settled = true := by
  induction n generalizing text with
  | zero => simp [passesMade] at hm
  | succ n ih =>
    rw [passesMade] at hm
    rw [repeatPass]
    split
    · rfl
    · rename_i hbusy
      rw [if_neg hbusy] at hm
      rcases List.mem_cons.mp hm with rfl | hm
      · exact absurd idle hbusy
      · exact ih hm

/-- A run that has settled is the same run under any greater cap. -/
theorem repeatPass_of_settled (h : (repeatPass pass n text).settled = true) (more : Nat) :
    repeatPass pass (n + more) text = repeatPass pass n text := by
  induction n generalizing text with
  | zero => simp [repeatPass] at h
  | succ n ih =>
    rw [repeatPass] at h
    rw [Nat.succ_add,repeatPass,repeatPass]
    split
    · rfl
    · rename_i hbusy
      rw [if_neg hbusy] at h
      dsimp only
      rw [ih h]

end

/-- If one of the passes under a cap replaces nothing, then it changes nothing, the
run gives no warning, and the line expands to the same text in the same passes
under every greater cap. -/
theorem expand_fixedPoint_of_idle (position : CommandPosition) (entries : List Entry)
    (input : Text) {n m : Nat} (caps : n ≤ m) {start : Text} {pass : Pass}
    (made : (start, pass) ∈
      passesMade (Pass.ofEntries position .keep entries) (max n 1) input)
    (idle : pass.substitutions = 0) :
    let passes := passesMade (Pass.ofEntries position .keep entries) (max n 1) input
    let expansion := expand position (.fixedPoint n) entries input
    pass.text = start ∧
      expansion.log = (passes.flatMap fun made => made.2.visits).map .visited ++
        [.resolved expansion.text] ∧
      (∀ maxPasses, Event.unsettled maxPasses ∉ expansion.log) ∧
      expand position (.fixedPoint m) entries input = expansion := by
  intro passes expansion
  have settled := settled_of_idle made idle
  have hlog : expansion.log = (passes.flatMap fun made => made.2.visits).map .visited ++
      [.resolved expansion.text] := by
    rw [← visits_repeatPass]
    simp [expansion,expand,ExpansionMode.passes,settled]
  refine ⟨?_,hlog,?_,?_⟩
  · have hpass : pass = Pass.ofEntries position .keep entries start := passesMade_made made
    rw [hpass] at idle ⊢
    exact Pass.ofEntries_keep_of_no_substitution idle
  · rw [hlog]
    simp
  · obtain ⟨more,hmore⟩ := Nat.exists_eq_add_of_le (show max n 1 ≤ max m 1 by omega)
    have hrun : repeatPass (Pass.ofEntries position .keep entries) (max m 1) input =
        repeatPass (Pass.ofEntries position .keep entries) (max n 1) input := by
      rw [hmore]
      exact repeatPass_of_settled settled more
    simp only [expansion,expand,ExpansionMode.passes,hrun,settled,if_pos]

/-- An escaped word, and an alias whose value an older one replaces: the third pass
is idle. -/
theorem expand_fixedPoint_of_idle_hub :
    let entries : List Entry := [⟨['g','i','t'],['h','u','b']⟩,⟨['g'],['g','i','t']⟩]
    let expanded := fun cap => expand CommandPosition.shell (.fixedPoint cap) entries
      ['\\','g','i','t',';','g']
    let start := ['\\','g','i','t',';','h','u','b']
    let pass := Pass.ofEntries CommandPosition.shell .keep entries start
    (start, pass) ∈ passesMade (Pass.ofEntries CommandPosition.shell .keep entries) 3
        ['\\','g','i','t',';','g'] ∧
      pass.substitutions = 0 ∧ pass.text = start ∧
      (∀ maxPasses, Event.unsettled maxPasses ∉ (expanded 3).log) ∧ expanded 9 = expanded 3 ∧
      (expanded 9).text = ['g','i','t',';','h','u','b'] := by
  intro entries expanded start pass
  have made : (start, pass) ∈
      passesMade (Pass.ofEntries CommandPosition.shell .keep entries) (max 3 1)
        ['\\','g','i','t',';','g'] := by decide +kernel
  have idle : pass.substitutions = 0 := by decide +kernel
  have caps : 3 ≤ 9 := by omega
  obtain ⟨hfixed,_,hquiet,hsame⟩ := expand_fixedPoint_of_idle _ entries _ caps made idle
  have htext : (expanded 9).text = ['g','i','t',';','h','u','b'] :=
    (congrArg Expansion.text hsame).trans (by decide +kernel)
  exact ⟨made,idle,hfixed,hquiet,hsame,htext⟩

end ShellAlias.Expansion
