import ShellAlias.Proofs.Expansion.Rounds

namespace ShellAlias

/-- A text as its first piece and the pieces that follow, with the key between
each two. Every occurrence is the first after the one before, and the last piece
holds none. -/
inductive GreedySplit (key : Text) : (text head : Text) → (tail : List Text) → Prop where
  | last {text : Text} (absent : ¬ key <:+: text) : GreedySplit key text text []
  | cut {before after head : Text} {tail : List Text}
      (first : ∀ a b, before ++ key ++ after = a ++ key ++ b → before.length ≤ a.length)
      (rest : GreedySplit key after head tail) :
      GreedySplit key (before ++ key ++ after) before (head :: tail)

def greedySplit (key text : Text) : Text × List Text :=
  match _found : Text.cutFirst? key text with
  | none => (text, [])
  | some (before, after) =>
    let (head, tail) := greedySplit key after
    (before, head :: tail)
termination_by text.length
decreasing_by exact Text.cutFirst?_length _found

def rejoin (key : Text) (pieces : List Text) : Text := pieces.flatMap fun piece => key ++ piece

def remainders (key : Text) : List Text → List Text
  | [] => []
  | piece :: pieces => (piece ++ rejoin key pieces) :: remainders key pieces

/-- Puts a split text together again from left to right, and decides at each
occurrence of the key what stands in its place. -/
def reassemble (position : CommandPosition) (entry : Entry) : (done : Text) → List Text → Text
  | done, [] => done
  | done, piece :: pieces =>
    if done.getLast? = some '\\' then
      reassemble position entry (done.dropLast ++ entry.key ++ piece) pieces
    else if entry.key.head? = some '~' ∨
        position entry.key (done ++ entry.key ++ piece ++ rejoin entry.key pieces)
          (Text.size done) = true then
      reassemble position entry (done ++ entry.value ++ piece) pieces
    else reassemble position entry (done ++ entry.key ++ piece) pieces

def turn (position : CommandPosition) (buffer : Text) (entry : Entry) : Text :=
  if entry.key = [] then buffer
  else
    let (head, tail) := greedySplit entry.key buffer
    reassemble position entry head tail

def turns (position : CommandPosition) : List Entry → Text → List (Entry × Text)
  | [], _ => []
  | entry :: entries, buffer =>
    (entry, buffer) :: turns position entries (turn position buffer entry)

theorem greedySplit_of_absent {key text : Text} (h : key = [] ∨ ¬ key <:+: text) :
    greedySplit key text = (text, []) := by
  rw [greedySplit]
  split
  · rfl
  · rename_i hc
    rw [Text.cutFirst?_eq_none_iff.mpr h] at hc
    contradiction

theorem greedySplit_of_cut {key text before after : Text}
    (h : Text.cutFirst? key text = some (before, after)) :
    greedySplit key text =
      (before, (greedySplit key after).1 :: (greedySplit key after).2) := by
  rw [greedySplit]
  split
  · rename_i hc
    rw [h] at hc
    contradiction
  · rename_i hc
    rw [h] at hc
    obtain ⟨rfl,rfl⟩ := Prod.mk.inj (Option.some.inj hc)
    rfl

theorem GreedySplit.rejoin_eq {key text head : Text} {tail : List Text}
    (h : GreedySplit key text head tail) : text = head ++ rejoin key tail := by
  induction h with
  | last absent => simp [rejoin]
  | cut first rest ih =>
    conv => lhs; rw [ih]
    simp [rejoin]

theorem greedySplit_spec {key : Text} (hk : key ≠ []) (text : Text) :
    GreedySplit key text (greedySplit key text).1 (greedySplit key text).2 := by
  fun_induction greedySplit key text with
  | case1 text hc =>
    exact .last ((Text.cutFirst?_eq_none_iff.mp hc).resolve_left hk)
  | case2 text before after hc head tail hs ih =>
    obtain ⟨_,rfl,first⟩ := Text.cutFirst?_eq_some_iff.mp hc
    rw [hs] at ih
    exact .cut first ih

/-- There is one greedy split, and the function finds it. -/
theorem greedySplit_iff {key text head : Text} {tail : List Text} :
    GreedySplit key text head tail ↔ key ≠ [] ∧ greedySplit key text = (head, tail) := by
  constructor
  · intro h
    have hk : key ≠ [] := by
      intro hempty
      subst hempty
      induction h with
      | last absent => exact absent (List.nil_infix)
      | cut first rest ih => exact ih
    refine ⟨hk,?_⟩
    induction h with
    | last absent => exact greedySplit_of_absent (Or.inr absent)
    | cut first rest ih =>
      rw [greedySplit_of_cut (Text.cutFirst?_eq_some_iff.mpr ⟨hk,rfl,first⟩),ih]
  · intro h
    obtain ⟨hk,hs⟩ := h
    have h := greedySplit_spec hk text
    rwa [hs] at h

theorem rejoin_greedySplit {key : Text} (hk : key ≠ []) (text : Text) :
    (greedySplit key text).1 ++ rejoin key (greedySplit key text).2 = text :=
  (greedySplit_spec hk text).rejoin_eq.symm

theorem reassemble_cons (position : CommandPosition) (entry : Entry) (done piece : Text)
    (pieces : List Text) :
    let visit := Visit.make position entry.key done (piece ++ rejoin entry.key pieces)
    reassemble position entry done (piece :: pieces) =
      reassemble position entry (visit.leaves .drop entry.value ++ piece) pieces := by
  intro visit
  rw [reassemble]
  by_cases he : done.getLast? = some '\\'
  · have hl : visit.leaves .drop entry.value = done.dropLast ++ entry.key := by
      rw [Visit.leaves_escaped _ (Visit.escaped_iff.mpr he)]
      simp [Visit.make,Text.dropEscape,he]
    rw [if_pos he,hl]
  · rw [if_neg he,List.append_assoc (done ++ entry.key)]
    split
    · rename_i hv
      rw [Visit.leaves_valid _ (Visit.valid_iff.mpr ⟨he,hv⟩)]
      rfl
    · rename_i hv
      rw [not_or,Bool.not_eq_true] at hv
      rw [Visit.leaves_invalid _ (Visit.invalid_iff.mpr ⟨he,hv⟩)]
      rfl

namespace Pass

variable {position : CommandPosition} {entry : Entry}

/-- From any place on, an alias reassembles the split of the rest. -/
theorem text_resume_drop (done rest : Text) :
    (resume position .drop entry done rest).text =
      reassemble position entry (done ++ (greedySplit entry.key rest).1)
        (greedySplit entry.key rest).2 := by
  induction done, rest using resume_induction with
  | stop done rest h => simp [greedySplit_of_absent h,reassemble]
  | visit done between after pass hc ih =>
    have hk := (Text.cutFirst?_eq_some hc).1
    rw [greedySplit_of_cut hc,reassemble_cons,rejoin_greedySplit hk]
    exact ih

/-- An alias comes to the occurrences of the split, each with the rest of the
text behind it as it was. -/
theorem visits_resume (escapes : Escapes) (done rest : Text) :
    (resume position escapes entry done rest).visits.map (fun visit => (visit.key, visit.after)) =
      (remainders entry.key (greedySplit entry.key rest).2).map
        (fun after => (entry.key, after)) := by
  induction done, rest using resume_induction with
  | stop done rest h => simp [greedySplit_of_absent h,remainders]
  | visit done between after pass hc ih =>
    have hk := (Text.cutFirst?_eq_some hc).1
    rw [greedySplit_of_cut hc,remainders,rejoin_greedySplit hk,List.map_cons,List.map_cons,ih]
    rfl

theorem text_ofEntry_drop (buffer : Text) :
    (ofEntry position .drop entry buffer).text = turn position buffer entry := by
  rw [ofEntry_eq_resume,text_resume_drop,turn]
  split
  · rename_i hk
    simp [greedySplit_of_absent (Or.inl hk),reassemble]
  · rfl

theorem text_ofEntries_drop (entries : List Entry) (buffer : Text) :
    (ofEntries position .drop entries buffer).text = entries.foldl (turn position) buffer := by
  induction entries generalizing buffer with
  | nil => rfl
  | cons entry entries ih =>
    rw [ofEntries,List.foldl_cons,← text_ofEntry_drop]
    exact ih _

theorem visits_ofEntries_drop (entries : List Entry) (buffer : Text) :
    (ofEntries position .drop entries buffer).visits.map (fun visit => (visit.key, visit.after)) =
      (turns position entries buffer).flatMap fun (entry, text) =>
        (remainders entry.key (greedySplit entry.key text).2).map
          (fun after => (entry.key, after)) := by
  induction entries generalizing buffer with
  | nil => rfl
  | cons entry entries ih =>
    rw [ofEntries,turns,List.flatMap_cons,List.map_append,ofEntry_eq_resume,visits_resume,
      ← text_ofEntry_drop,← ih]
    rfl

end Pass

/-- A single pass takes the aliases in turn. Each comes to exactly the
occurrences that the greedy split of its starting buffer is cut at, whatever is
put in or taken out on the way, and the scan that changes the buffer in place
ends with what the turn gives. -/
theorem Expansion.expand_singlePass_eq_foldl (position : CommandPosition) (entries : List Entry)
    (input : Text) :
    (expand position .singlePass entries input).text = entries.foldl (turn position) input ∧
      (∃ visits : List Visit,
        (expand position .singlePass entries input).log =
          visits.map .visited ++ [.resolved (entries.foldl (turn position) input)] ∧
        visits.map (fun visit => (visit.key, visit.after)) =
          (turns position entries input).flatMap fun (entry, buffer) =>
            (remainders entry.key (greedySplit entry.key buffer).2).map
              (fun after => (entry.key, after))) ∧
      (∀ key text head tail, GreedySplit key text head tail ↔
        key ≠ [] ∧ greedySplit key text = (head, tail)) ∧
      ∀ entry buffer, ∃ front back, turn position buffer entry = front ++ back ∧
        Relation.ReflTransGen (Cursor.Advances position .drop entry)
          ⟨buffer,0⟩ ⟨front ++ back,Text.size front⟩ ∧
        (entry.key = [] ∨ ¬ entry.key <:+: back) := by
  have htext : (Pass.ofEntries position .drop entries input).text =
      entries.foldl (turn position) input := Pass.text_ofEntries_drop entries input
  refine ⟨htext,⟨(Pass.ofEntries position .drop entries input).visits,?_,
    Pass.visits_ofEntries_drop entries input⟩,fun _ _ _ _ => greedySplit_iff,?_⟩
  · rw [← htext]
    rfl
  · intro entry buffer
    rw [← Pass.text_ofEntry_drop]
    exact Pass.advances_resume [] buffer

end ShellAlias
