import Mathlib.Order.Bounds.Defs
import ShellAlias.Proofs.Expansion.Cursor
import ShellAlias.Proofs.Text.Boundary

namespace ShellAlias

/-- The byte index that is found is the first, from the offset on, at which the
bytes of the key stand. -/
theorem Cursor.isLeast_of_find? {done rest key : Text} {index : Nat}
    (h : find? ⟨done ++ rest,Text.size done⟩ key = some index) :
    IsLeast {i | Text.size done ≤ i ∧ Text.StandsAt key (done ++ rest) i} index := by
  rw [find?_append] at h
  obtain ⟨⟨between,after⟩,hc,hindex⟩ := Option.map_eq_some_iff.mp h
  obtain rfl : Text.size (done ++ between) = index := hindex
  obtain ⟨_,rfl⟩ := Text.cutFirst?_eq_some hc
  have hplace : done ++ (between ++ key ++ after) = done ++ between ++ key ++ after := by simp
  refine ⟨⟨?_,?_⟩,?_⟩
  · rw [Text.size_append]
    exact Nat.le_add_right _ _
  · rw [hplace]
    exact Text.standsAt_size (done ++ between) key after
  · rintro i ⟨hi,hs⟩
    obtain ⟨i,rfl⟩ := Nat.exists_eq_add_of_le hi
    rw [Text.standsAt_append] at hs
    rw [Text.size_append]
    exact Nat.add_le_add_left (Text.size_le_of_standsAt hc hs) _

theorem Cursor.not_standsAt_of_find? {done rest key : Text} (hk : key ≠ [])
    (h : find? ⟨done ++ rest,Text.size done⟩ key = none) {i : Nat} (hi : Text.size done ≤ i) :
    ¬ Text.StandsAt key (done ++ rest) i := by
  intro hs
  obtain ⟨i,rfl⟩ := Nat.exists_eq_add_of_le hi
  rw [Text.standsAt_append] at hs
  obtain ⟨a,b,rfl,_⟩ := Text.exists_of_standsAt hk hs
  exact (find?_eq_none_iff.mp h).resolve_left hk ⟨a,b,rfl⟩

namespace Occurrence

theorem unescapeAt?_eq_some {text left : Text} {index escape : Nat}
    (h : unescapeAt? text index = some (escape, left)) :
    ∃ before after, text = before ++ '\\' :: after ∧ Text.size before = escape ∧
      index = escape + 1 ∧ left = before ++ after := by
  cases index with
  | zero => simp [unescapeAt?] at h
  | succ index =>
    rw [unescapeAt?] at h
    split at h
    · rename_i before after hs
      obtain ⟨rfl,rfl⟩ := Prod.mk.inj (Option.some.inj h)
      obtain ⟨rfl,hsize⟩ := Text.splitAtByte?_eq_some_iff.mp hs
      exact ⟨before,after,rfl,hsize,rfl,rfl⟩
    · contradiction

theorem unescapeAt?_of_getLast?_ne {before rest : Text} (h : before.getLast? ≠ some '\\') :
    unescapeAt? (before ++ rest) (Text.size before) = none := by
  rw [Option.eq_none_iff_forall_ne_some]
  rintro ⟨escape,left⟩ hu
  obtain ⟨front,back,htext,rfl,hindex,_⟩ := unescapeAt?_eq_some hu
  have hsize : Text.size (front ++ ['\\']) = Text.size before := by
    rw [hindex,Text.size_append]
    rfl
  have hsplit := Text.splitAtByte?_append (front ++ ['\\']) back
  rw [hsize,List.append_assoc,List.singleton_append,← htext,Text.splitAtByte?_append] at hsplit
  obtain ⟨rfl,_⟩ := Prod.mk.inj (Option.some.inj hsplit)
  exact h List.getLast?_concat

end Occurrence

/-- A search of a buffer that is changed in place: for the occurrences of an alias
in a pass, or for those of a key that lose their backslash at the end. -/
inductive Scan where
  | replace (position : CommandPosition) (escapes : Escapes) (entry : Entry)
  | unescape (key : Text)

structure Found where
  buffer : Text
  index : Nat
  deriving DecidableEq, Repr

def Visit.found (visit : Visit) : Found := ⟨visit.context,visit.index⟩

namespace Scan

def key : Scan → Text
  | .replace _ _ entry => entry.key
  | .unescape key => key

def settle? : Scan → (buffer : Text) → (index : Nat) → Option Cursor
  | .replace position escapes entry, buffer, index =>
    Cursor.settle? position escapes entry buffer index
  | .unescape key, buffer, index =>
    let (index, buffer) := (Occurrence.unescapeAt? buffer index).getD (index, buffer)
    some ⟨buffer,index + Text.size key⟩

def result : Scan → (buffer : Text) → Text
  | .replace position escapes entry, buffer => (Pass.ofEntry position escapes entry buffer).text
  | .unescape key, buffer => unescapeAll [key] buffer

inductive Rounds (scan : Scan) : Cursor → List Found → Cursor → Prop where
  | none (cursor : Cursor) : Rounds scan cursor [] cursor
  | round {cursor next last : Cursor} {index : Nat} {others : List Found}
      (found : cursor.find? scan.key = some index)
      (settled : scan.settle? cursor.buffer index = some next)
      (rest : Rounds scan next others last) :
      Rounds scan cursor (⟨cursor.buffer,index⟩ :: others) last

def leaves : Scan → (before after : Text) → Text
  | .replace position escapes entry, before, after =>
    (Visit.make position entry.key before after).leaves escapes entry.value
  | .unescape key, before, _ => Text.dropEscape before ++ key

/-- The text after an occurrence is left alone, and the scan goes on from its start. -/
theorem settle?_append (scan : Scan) (before after : Text) :
    scan.settle? (before ++ scan.key ++ after) (Text.size before) =
      some ⟨scan.leaves before after ++ after,Text.size (scan.leaves before after)⟩ := by
  cases scan with
  | replace position escapes entry =>
    exact Cursor.settle?_append position escapes entry before after
  | unescape key =>
    simp only [settle?,leaves,Scan.key]
    by_cases he : before.getLast? = some '\\'
    · obtain ⟨front,rfl⟩ := List.getLast?_eq_some_iff.mp he
      have hdrop : Text.dropEscape (front ++ ['\\']) = front := by simp [Text.dropEscape]
      have htext : front ++ ['\\'] ++ key ++ after = front ++ '\\' :: (key ++ after) := by simp
      rw [htext,Cursor.unescapeAt?_append,hdrop,Text.size_append front key,List.append_assoc]
      rfl
    · have hdrop : Text.dropEscape before = before := if_neg he
      rw [List.append_assoc,Occurrence.unescapeAt?_of_getLast?_ne he,hdrop,Text.size_append before,
        List.append_assoc]
      rfl

theorem find?_cases {scan : Scan} {done rest : Text} {index : Nat}
    (found : Cursor.find? ⟨done ++ rest,Text.size done⟩ scan.key = some index) :
    ∃ between after, rest = between ++ scan.key ++ after ∧ index = Text.size (done ++ between) ∧
      scan.settle? (done ++ rest) index =
        some ⟨scan.leaves (done ++ between) after ++ after,
          Text.size (scan.leaves (done ++ between) after)⟩ := by
  rw [Cursor.find?_append] at found
  obtain ⟨⟨between,after⟩,hc,hindex⟩ := Option.map_eq_some_iff.mp found
  obtain rfl : Text.size (done ++ between) = index := hindex
  obtain ⟨_,rfl⟩ := Text.cutFirst?_eq_some hc
  refine ⟨between,after,rfl,rfl,?_⟩
  have hplace : done ++ (between ++ scan.key ++ after) = done ++ between ++ scan.key ++ after := by
    simp
  rw [hplace]
  exact scan.settle?_append (done ++ between) after

/-- Between rounds the cursor stands between what was done and what is left of the
buffer at the start, and each round has used up a key of it. -/
theorem Rounds.remainder {scan : Scan} {cursor last : Cursor} {found : List Found}
    (h : scan.Rounds cursor found last) {done rest : Text}
    (hcursor : cursor = ⟨done ++ rest,Text.size done⟩) :
    ∃ front back, last = ⟨front ++ back,Text.size front⟩ ∧
      found.length * Text.size scan.key + Text.size back ≤ Text.size rest := by
  induction h generalizing done rest with
  | none cursor => exact ⟨done,rest,hcursor,by simp⟩
  | round hfound hsettled _ ih =>
    subst hcursor
    obtain ⟨between,after,rfl,_,hnext⟩ := find?_cases hfound
    have he := Option.some.inj (hsettled.symm.trans hnext)
    obtain ⟨front,back,hlast,hsize⟩ := ih he
    refine ⟨front,back,hlast,?_⟩
    rw [List.length_cons,Nat.succ_mul,Text.size_append,Text.size_append]
    omega

def trace (scan : Scan) (done rest : Text) : List Found × Text :=
  walk scan.key (fun before after =>
    (⟨before ++ scan.key ++ after,Text.size before⟩, scan.leaves before after)) done rest

/-- The rounds come to an end with what the scan makes of the text. -/
theorem rounds_trace (scan : Scan) (done rest : Text) :
    ∃ front back, (scan.trace done rest).2 = front ++ back ∧
      scan.Rounds ⟨done ++ rest,Text.size done⟩ (scan.trace done rest).1
        ⟨front ++ back,Text.size front⟩ ∧
      Cursor.find? ⟨front ++ back,Text.size front⟩ scan.key = none := by
  unfold trace
  induction done, rest using walk_induction with
  | stop done rest h => exact ⟨done,rest,rfl,.none _,Cursor.find?_eq_none_iff.mpr h⟩
  | visit done between after result hc ih =>
    obtain ⟨front,back,htext,hrounds,hnone⟩ := ih
    refine ⟨front,back,htext,?_,hnone⟩
    have hplace :
        done ++ (between ++ scan.key ++ after) = done ++ between ++ scan.key ++ after := by
      simp
    rw [← hplace]
    refine .round ?_ ?_ hrounds
    · rw [Cursor.find?_append,hc]
      rfl
    · rw [hplace]
      exact scan.settle?_append (done ++ between) after

/-- An alias comes to the occurrences that its visits tell of. -/
theorem trace_replace (position : CommandPosition) (escapes : Escapes) (entry : Entry)
    (done rest : Text) :
    (Scan.replace position escapes entry).trace done rest =
      ((Pass.resume position escapes entry done rest).visits.map Visit.found,
        (Pass.resume position escapes entry done rest).text) :=
  walk_map Visit.found entry.key
    (fun before after => (Visit.make position entry.key before after,
      (Visit.make position entry.key before after).leaves escapes entry.value)) done rest

theorem Rounds.advances {position : CommandPosition} {escapes : Escapes} {entry : Entry}
    {cursor last : Cursor} {found : List Found}
    (h : (Scan.replace position escapes entry).Rounds cursor found last) :
    Relation.ReflTransGen (Cursor.Advances position escapes entry) cursor last := by
  induction h with
  | none cursor => exact .refl
  | round found settled _ ih => exact .head ⟨_,found,settled⟩ ih

theorem text_trace (scan : Scan) (buffer : Text) :
    (scan.trace [] buffer).2 = scan.result buffer := by
  cases scan with
  | replace position escapes entry =>
    rw [trace_replace]
    rfl
  | unescape key =>
    have hwalk := walk_map (fun _ : Found => ()) key (fun before after =>
      (⟨before ++ key ++ after,Text.size before⟩, Text.dropEscape before ++ key)) [] buffer
    exact (congrArg Prod.snd hwalk).symm

/-- A backslash before an occurrence is a character of the buffer. -/
theorem isBoundary_escape {before rest : Text}
    (h : Occurrence.isEscaped (before ++ rest) (Text.size before) = true) :
    Text.IsBoundary (before ++ rest) (Text.size before - 1) := by
  obtain ⟨front,rfl⟩ := List.getLast?_eq_some_iff.mp ((Occurrence.isEscaped_append _ _).mp h)
  have hsize : Text.size (front ++ ['\\']) - 1 = Text.size front := by
    rw [Text.size_append]
    rfl
  rw [hsize,List.append_assoc]
  exact Text.isBoundary_size front _

/-- Whatever a scan replaces, it stays between characters: from where it searches,
where it finds the key, where the key ends and where it takes a backslash away, so no
edit fails. It finds the first place at which the key's bytes stand, and stops only if
there is none. It makes no more rounds than the key fits into the buffer that it
started from, and ends with what the alias, or the unescaping, makes of that buffer. -/
theorem rounds_bounded (scan : Scan) (nonempty : scan.key ≠ []) (buffer : Text) :
    (∀ found cursor, scan.Rounds ⟨buffer,0⟩ found cursor →
      found.length ≤ Text.size buffer / Text.size scan.key ∧
      cursor.offset ≤ Text.size cursor.buffer ∧
      Text.IsBoundary cursor.buffer cursor.offset ∧
      (Text.splitAtByte? cursor.offset cursor.buffer).isSome = true ∧
      (cursor.find? scan.key = none →
        ∀ i, cursor.offset ≤ i → ¬ Text.StandsAt scan.key cursor.buffer i) ∧
      ∀ index, cursor.find? scan.key = some index →
        IsLeast {i | cursor.offset ≤ i ∧ Text.StandsAt scan.key cursor.buffer i} index ∧
        Text.IsBoundary cursor.buffer index ∧
        Text.IsBoundary cursor.buffer (index + Text.size scan.key) ∧
        (Occurrence.isEscaped cursor.buffer index = true →
          Text.IsBoundary cursor.buffer (index - 1)) ∧
        ∃ next, scan.settle? cursor.buffer index = some next) ∧
    ∃ found last, scan.Rounds ⟨buffer,0⟩ found last ∧ last.find? scan.key = none ∧
      last.buffer = scan.result buffer := by
  constructor
  · intro found cursor hrounds
    have hstart : (⟨buffer,0⟩ : Cursor) = ⟨[] ++ buffer,Text.size []⟩ := rfl
    obtain ⟨done,rest,rfl,hsize⟩ := hrounds.remainder hstart
    have hpos := Text.size_pos nonempty
    have hboundary := Text.isBoundary_size done rest
    refine ⟨?_,hboundary.le_size,hboundary,Text.isSome_splitAtByte?_iff.mpr hboundary,
      fun hnone i hi => Cursor.not_standsAt_of_find? nonempty hnone hi,?_⟩
    · rw [Nat.le_div_iff_mul_le hpos]
      omega
    · intro index hfound
      have hleast := Cursor.isLeast_of_find? hfound
      obtain ⟨between,after,rfl,rfl,hnext⟩ := find?_cases hfound
      have hbefore : done ++ (between ++ scan.key ++ after) =
          done ++ between ++ (scan.key ++ after) := by simp
      have hwhole : done ++ (between ++ scan.key ++ after) =
          done ++ between ++ scan.key ++ after := by simp
      refine ⟨hleast,?_,?_,?_,_,hnext⟩
      · rw [hbefore]
        exact Text.isBoundary_size _ _
      · rw [hwhole,← Text.size_append]
        exact Text.isBoundary_size _ _
      · rw [hbefore]
        exact isBoundary_escape
  · obtain ⟨front,back,htext,hrounds,hnone⟩ := scan.rounds_trace [] buffer
    exact ⟨_,_,hrounds,hnone,htext.symm.trans (scan.text_trace buffer)⟩

/-- A value that holds the key and ends in a backslash: the second round finds the key
behind that backslash and moves back by a byte, and the third is the last that fits. -/
theorem rounds_bounded_growing :
    let scan : Scan := .replace (fun _ _ _ => true) .drop ⟨['é'],['é','é','\\']⟩
    let cursor : Cursor := ⟨['é','é','é','é'],6⟩
    let found : List Found := [⟨['é','é','é'],0⟩,⟨['é','é','\\','é','é'],5⟩]
    scan.key ≠ [] ∧ scan.Rounds ⟨['é','é','é'],0⟩ found cursor ∧ cursor.find? scan.key = some 6 ∧
      found.length ≤ Text.size ['é','é','é'] / Text.size scan.key ∧
      Text.IsBoundary cursor.buffer 6 ∧ Text.IsBoundary cursor.buffer 8 ∧
      (∃ next, scan.settle? cursor.buffer 6 = some next) ∧
      ∃ found last, scan.Rounds ⟨['é','é','é'],0⟩ found last ∧ last.find? scan.key = none ∧
        last.buffer = ['é','é','é','é','é','\\'] := by
  intro scan cursor found
  have nonempty : scan.key ≠ [] := by decide
  have hsettled : scan.settle? ['é','é','\\','é','é'] 5 = some cursor := by decide
  have hsecond : scan.Rounds ⟨['é','é','\\','é','é'],5⟩ _ cursor :=
    .round (by decide) hsettled (.none cursor)
  have hrounds : scan.Rounds ⟨['é','é','é'],0⟩ found cursor :=
    .round (by decide) (by decide) hsecond
  have hfound : cursor.find? scan.key = some 6 := by decide
  obtain ⟨hall,found',last,hlast,hnone,htext⟩ := scan.rounds_bounded nonempty ['é','é','é']
  obtain ⟨hbound,_,_,_,_,hslices⟩ := hall found cursor hrounds
  obtain ⟨_,hindex,hend,_,hnext⟩ := hslices 6 hfound
  have hresult : scan.result ['é','é','é'] = ['é','é','é','é','é','\\'] := by decide +kernel
  exact ⟨nonempty,hrounds,hfound,hbound,hindex,hend,hnext,found',last,hlast,hnone,
    htext.trans hresult⟩

end Scan

/-- The scan in place comes to an end with what the alias makes of the text. -/
theorem Pass.advances_resume {position : CommandPosition} {escapes : Escapes} {entry : Entry}
    (done rest : Text) :
    ∃ front back, (resume position escapes entry done rest).text = front ++ back ∧
      Relation.ReflTransGen (Cursor.Advances position escapes entry)
        ⟨done ++ rest,Text.size done⟩ ⟨front ++ back,Text.size front⟩ ∧
      (entry.key = [] ∨ ¬ entry.key <:+: back) := by
  obtain ⟨front,back,htext,hrounds,hnone⟩ :=
    (Scan.replace position escapes entry).rounds_trace done rest
  rw [Scan.trace_replace] at htext
  exact ⟨front,back,htext,hrounds.advances,Cursor.find?_eq_none_iff.mp hnone⟩

end ShellAlias
