import ShellAlias.Proofs.Expansion.Edit

namespace ShellAlias

theorem Text.dropEscape_prefix (text : Text) : Text.dropEscape text <+: text := by
  rw [Text.dropEscape]
  split
  · exact List.dropLast_prefix text
  · exact List.prefix_refl text

theorem Text.dropEscape_of_not_mem {text : Text} (h : '\\' ∉ text) :
    Text.dropEscape text = text :=
  if_neg fun hl => h (List.mem_of_getLast? hl)

/-- An edit brings in no characters but those of a value. -/
theorem Edit.mem {position : CommandPosition} {escapes : Escapes} {entries : List Entry}
    {text edited : Text} (h : Edit position escapes entries text edited) {c : Char}
    (hc : c ∈ edited) : c ∈ text ∨ ∃ entry ∈ entries, c ∈ entry.value := by
  cases h with
  | visit entry before after hm hne =>
    have kept {front : Text} (hfront : front <+: before)
        (hc : c ∈ front ++ entry.key ++ after) : c ∈ before ++ entry.key ++ after := by
      simp only [List.mem_append] at hc ⊢
      exact hc.imp_left (Or.imp_left fun hc => hfront.mem hc)
    cases ho : (Visit.make position entry.key before after).occurrence with
    | escaped =>
      rw [Visit.leaves_escaped _ ho] at hc
      cases escapes with
      | drop => exact Or.inl (kept (Text.dropEscape_prefix before) hc)
      | keep => exact Or.inl (kept (List.prefix_refl before) hc)
    | valid =>
      rw [Visit.leaves_valid _ ho] at hc
      rcases List.mem_append.mp hc with hc | hc
      · rcases List.mem_append.mp hc with hc | hc
        · exact Or.inl (List.mem_append_left _ (List.mem_append_left _ hc))
        · exact Or.inr ⟨entry,hm,hc⟩
      · exact Or.inl (List.mem_append_right _ hc)
    | invalid =>
      rw [Visit.leaves_invalid _ ho] at hc
      exact Or.inl (kept (List.prefix_refl before) hc)

theorem mem_of_edits {position : CommandPosition} {escapes : Escapes} {entries : List Entry}
    {text edited : Text} (h : Relation.ReflTransGen (Edit position escapes entries) text edited)
    {c : Char} (hc : c ∈ edited) : c ∈ text ∨ ∃ entry ∈ entries, c ∈ entry.value := by
  induction h with
  | refl => exact Or.inl hc
  | tail _ hedit ih =>
    rcases hedit.mem hc with hc | hvalue
    · exact ih hc
    · exact Or.inr hvalue

/-- Where no value has a backslash, edits bring none in. -/
theorem not_mem_of_edits {position : CommandPosition} {escapes : Escapes} {entries : List Entry}
    (hv : ∀ entry ∈ entries, '\\' ∉ entry.value) {text edited : Text}
    (hedits : Relation.ReflTransGen (Edit position escapes entries) text edited)
    (h : '\\' ∉ text) : '\\' ∉ edited := by
  intro hm
  rcases mem_of_edits hedits hm with hm | ⟨entry,he,hm⟩
  · exact h hm
  · exact hv entry he hm

/-- Unescaping takes characters away and changes nothing else. -/
theorem unescapeAll_sublist (keys : List Text) (text : Text) :
    (unescapeAll keys text).Sublist text := by
  have one (key done rest : Text) :
      (walk key (fun before _ => ((), Text.dropEscape before ++ key)) done rest).2.Sublist
        (done ++ rest) := by
    induction done, rest using walk_induction with
    | stop done rest _ => exact List.Sublist.refl _
    | visit done between after result _ ih =>
      apply ih.trans
      have hdropped := (Text.dropEscape_prefix (done ++ between)).sublist
      simpa only [List.append_assoc] using hdropped.append_right (key ++ after)
  induction keys generalizing text with
  | nil => exact List.Sublist.refl _
  | cons key keys ih => exact (ih _).trans (one key [] text)

/-- An expanded line is made of the characters of the line and of the values. -/
theorem Expansion.mem_of_mem_expand {position : CommandPosition} {mode : ExpansionMode}
    {entries : List Entry} {input : Text} {c : Char}
    (hc : c ∈ (expand position mode entries input).text) :
    c ∈ input ∨ ∃ entry ∈ entries, c ∈ entry.value := by
  cases mode with
  | singlePass => exact mem_of_edits (Pass.edits_ofEntries input) hc
  | fixedPoint maxPasses =>
    exact mem_of_edits (edits_repeatPass _ input) ((unescapeAll_sublist _ _).mem hc)

end ShellAlias
