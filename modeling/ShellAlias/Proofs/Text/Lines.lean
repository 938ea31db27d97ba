import Mathlib.Data.List.Basic
import ShellAlias.Text.Lines

namespace ShellAlias

namespace Lines

variable {α : Type} [DecidableEq α] {terminator : α}

theorem segments_append {segment : List α} (h : terminator ∉ segment) (rest : List α) :
    segments terminator (segment ++ terminator :: rest) =
      (segment :: (segments terminator rest).1, (segments terminator rest).2) := by
  induction segment with
  | nil => simp [segments]
  | cons x segment ih =>
    rw [List.mem_cons,not_or] at h
    have hx : x ≠ terminator := fun he => h.1 he.symm
    simp [segments,hx,ih h.2]

theorem segments_of_not_mem {xs : List α} (h : terminator ∉ xs) :
    segments terminator xs = ([], xs) := by
  induction xs with
  | nil => rfl
  | cons x xs ih =>
    rw [List.mem_cons,not_or] at h
    have hx : x ≠ terminator := fun he => h.1 he.symm
    simp [segments,hx,ih h.2]

theorem not_mem_segments (terminator : α) (xs : List α) :
    (∀ segment ∈ (segments terminator xs).1, terminator ∉ segment) ∧
      terminator ∉ (segments terminator xs).2 := by
  induction xs with
  | nil => simp [segments]
  | cons x xs ih =>
    obtain ⟨hclosed,hlast⟩ := ih
    rw [segments]
    by_cases hx : x = terminator
    · simp only [hx,↓reduceIte]
      exact ⟨List.forall_mem_cons.mpr ⟨List.not_mem_nil,hclosed⟩,hlast⟩
    · have hne : terminator ≠ x := fun he => hx he.symm
      simp only [hx,↓reduceIte]
      cases hs : (segments terminator xs).1 with
      | nil => exact ⟨by simp,by simp [hne,hlast]⟩
      | cons segment others =>
        rw [hs] at hclosed
        obtain ⟨hfirst,hothers⟩ := List.forall_mem_cons.mp hclosed
        exact ⟨List.forall_mem_cons.mpr ⟨by simp [hne,hfirst],hothers⟩,hlast⟩

theorem dropReturn_prefix (ret : α) (line : List α) : dropReturn ret line <+: line := by
  rw [dropReturn]
  split
  · exact List.dropLast_prefix line
  · exact List.prefix_refl line

end Lines

namespace Text

/-- A closed line comes first, without its return. -/
theorem lines_line_append {first : Text} (h : '\n' ∉ first) (rest : Text) :
    lines (line first ++ rest) = Lines.dropReturn '\r' first :: lines rest := by
  rw [line,List.append_assoc,List.singleton_append,lines,Lines.split,Lines.segments_append h]
  rfl

theorem lines_of_not_mem {text : Text} (h : '\n' ∉ text) :
    lines text = if text = [] then [] else [text] := by
  rw [lines,Lines.split,Lines.segments_of_not_mem h]
  rfl

/-- A text is one open piece, or it starts with a closed line. -/
theorem open_or_line_append (text : Text) :
    '\n' ∉ text ∨ ∃ first rest, '\n' ∉ first ∧ text = line first ++ rest := by
  by_cases h : '\n' ∈ text
  · obtain ⟨first,rest,htext,hfirst⟩ := List.eq_append_cons_of_mem h
    exact Or.inr ⟨first,rest,hfirst,by rw [htext,line,List.append_assoc,List.singleton_append]⟩
  · exact Or.inl h

def IsClosed (text : Text) : Prop := text = [] ∨ text.getLast? = some '\n'

instance (text : Text) : Decidable text.IsClosed :=
  inferInstanceAs (Decidable (_ ∨ _))

theorem isClosed_line_append {rest : Text} (first : Text) (h : rest.IsClosed) :
    (line first ++ rest).IsClosed := by
  right
  rcases h with rfl | h
  · rw [List.append_nil,line,List.getLast?_concat]
  · rw [List.getLast?_append,h]
    rfl

theorem IsClosed.of_line_append {first rest : Text} (h : (line first ++ rest).IsClosed) :
    rest.IsClosed := by
  by_cases hrest : rest = []
  · exact Or.inl hrest
  · rcases h with h | h
    · exact Or.inl (List.append_eq_nil_iff.mp h).2
    · rw [List.getLast?_append_of_ne_nil _ hrest] at h
      exact Or.inr h

/-- Behind a closed text the lines start anew. -/
theorem lines_append {text : Text} (closed : text.IsClosed) (rest : Text) :
    lines (text ++ rest) = lines text ++ lines rest := by
  rcases open_or_line_append text with hopen | ⟨first,others,hfirst,rfl⟩
  · rcases closed with rfl | hlast
    · rfl
    · exact absurd (List.mem_of_getLast? hlast) hopen
  · have hlen : others.length < (line first ++ others).length := by
      rw [line,List.length_append,List.length_append,List.length_singleton]
      omega
    rw [List.append_assoc,lines_line_append hfirst,lines_line_append hfirst,
      lines_append closed.of_line_append rest,List.cons_append]
termination_by text.length

/-- Where the lines of a text are parted, the text is. -/
theorem exists_append_of_lines {text : Text} {before after : List Text}
    (h : lines text = before ++ after) (hne : after ≠ []) :
    ∃ first rest, text = first ++ rest ∧ first.IsClosed ∧ lines first = before ∧
      lines rest = after := by
  induction before generalizing text with
  | nil => exact ⟨[],text,rfl,Or.inl rfl,rfl,h⟩
  | cons one before ih =>
    rcases open_or_line_append text with hopen | ⟨head,others,hhead,rfl⟩
    · -- an open piece is one line at most
      rw [lines_of_not_mem hopen] at h
      have hlen := congrArg List.length h
      have hpos := List.length_pos_iff.mpr hne
      rw [List.length_append,List.length_cons] at hlen
      split at hlen <;> simp only [List.length_nil,List.length_singleton] at hlen <;> omega
    · rw [lines_line_append hhead] at h
      obtain ⟨rfl,hothers⟩ := List.cons.inj h
      obtain ⟨first,rest,rfl,hclosed,hfirst,hrest⟩ := ih hothers
      refine ⟨line head ++ first,rest,by rw [List.append_assoc],isClosed_line_append head hclosed,
        ?_,hrest⟩
      rw [lines_line_append hhead,hfirst]

/-- Texts that are printed as lines are found again. -/
theorem lines_flatMap_line {texts : List Text} (hfeed : ∀ text ∈ texts, '\n' ∉ text)
    (hreturn : ∀ text ∈ texts, text.getLast? ≠ some '\r') :
    lines (texts.flatMap line) = texts := by
  induction texts with
  | nil => rfl
  | cons text texts ih =>
    obtain ⟨hfirst,hfeed⟩ := List.forall_mem_cons.mp hfeed
    obtain ⟨hlast,hreturn⟩ := List.forall_mem_cons.mp hreturn
    rw [List.flatMap_cons,lines_line_append hfirst,ih hfeed hreturn,Lines.dropReturn,if_neg hlast]

theorem not_mem_of_mem_lines {text one : Text} (h : one ∈ lines text) : '\n' ∉ one := by
  obtain ⟨hclosed,hlast⟩ := Lines.not_mem_segments '\n' text
  rw [lines,Lines.split] at h
  rcases List.mem_append.mp h with h | h
  · obtain ⟨segment,hs,rfl⟩ := List.mem_map.mp h
    exact fun hm => hclosed segment hs ((Lines.dropReturn_prefix '\r' segment).mem hm)
  · split at h
    · contradiction
    · obtain rfl := List.mem_singleton.mp h
      exact hlast

end Text
end ShellAlias
