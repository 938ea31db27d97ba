import ShellAlias.Proofs.Json.Members

namespace ShellAlias.Json

/-- A member as it is written: its name in quotes, a colon and its value, with space
around each of them. -/
inductive IsMember : Text × Text → Text → Prop where
  | parts {before quoted name gap lead value after : Text} (hb : IsSpace before)
      (hn : IsString quoted name) (hg : IsSpace gap) (hl : IsSpace lead) (ha : IsSpace after) :
      IsMember (name, value) (before ++ (quoted ++ (gap ++ ':' :: (lead ++ (value ++ after)))))

inductive IsMembers : List (Text × Text) → Text → Prop where
  | last {named : Text × Text} {text : Text} (h : IsMember named text) : IsMembers [named] text
  | next {named : Text × Text} {parts : List (Text × Text)} {text others : Text}
      (h : IsMember named text) (ho : IsMembers parts others) :
      IsMembers (named :: parts) (text ++ ',' :: others)

/-- An object as it is written, with these names and what is written for their values. -/
inductive IsObject : List (Text × Text) → Text → Prop where
  | empty {space : Text} (hs : IsSpace space) : IsObject [] ('\x7b' :: (space ++ ['\x7d']))
  | filled {parts : List (Text × Text)} {text : Text} (h : IsMembers parts text) :
      IsObject parts ('\x7b' :: (text ++ ['\x7d']))

variable {σ : Type}

/-- A reader of members takes one state to another on a name and the value written for
it, whatever space stands around the colon. -/
def TakesMember (member : σ → Text → Text → Step σ) (state : σ) (named : Text × Text)
    (next : σ) : Prop :=
  ∀ gap lead rest, IsSpace gap → IsSpace lead → EndsValue rest →
    member state named.1 (gap ++ ':' :: (lead ++ (named.2 ++ rest))) = .ok (next, rest)

inductive Takes (member : σ → Text → Text → Step σ) : σ → List (Text × Text) → σ → Prop where
  | nil (state : σ) : Takes member state [] state
  | cons {state next last : σ} {named : Text × Text} {parts : List (Text × Text)}
      (hmember : TakesMember member state named next) (hothers : Takes member next parts last) :
      Takes member state (named :: parts) last

variable {member : σ → Text → Text → Step σ} {state next last : σ} {parts : List (Text × Text)}
  {text : Text}

theorem Lead.append {first : Bool} {lead space : Text} (h : Lead first lead) (hs : IsSpace space) :
    Lead first (lead ++ space) := by
  cases h with
  | first hl => exact .first (hl.append hs)
  | next hl hg =>
    rw [List.append_assoc]
    exact .next hl (hg.append hs)

/-- A member is read, and what follows it with the space that is left between them. -/
theorem IsMember.read {named : Text × Text} (h : IsMember named text) {first : Bool} {lead : Text}
    (hlead : Lead first lead) (hmember : TakesMember member state named next) {others rest : Text}
    (hends : EndsValue others)
    (hothers : ∀ after, IsSpace after → MembersRead member false next (after ++ others) last rest) :
    MembersRead member first state (lead ++ (text ++ others)) last rest := by
  cases h with
  | @parts before _ name gap space value after hb hn hg hl ha =>
    obtain ⟨spelled,rfl,hspelled⟩ := hn
    have hvalue := hmember gap space (after ++ others) hg hl (.of_space ha hends)
    have hwhole : lead ++ (before ++ ('"' :: (spelled ++ ['"']) ++
          (gap ++ ':' :: (space ++ (value ++ after)))) ++ others) =
        lead ++ before ++
          '"' :: (spelled ++ '"' :: (gap ++ ':' :: (space ++ (value ++ (after ++ others))))) := by
      simp
    rw [hwhole]
    refine .member (hlead.append hb) (hspelled.string _) hvalue ?_ (hothers after ha)
    simp only [List.length_append,List.length_cons]
    omega

theorem IsMembers.read (h : IsMembers parts text) {first : Bool} {lead : Text}
    (hlead : Lead first lead) (htakes : Takes member state parts last) (rest : Text) :
    MembersRead member first state (lead ++ (text ++ '\x7d' :: rest)) last rest := by
  induction h generalizing first lead state with
  | last h =>
    obtain _ | ⟨hmember,hnone⟩ := htakes
    cases hnone with
    | nil =>
      refine h.read hlead hmember (endsValue_cons (.inr (.inr rfl)) rest) ?_
      intro after ha
      exact .closed false _ rest ha
  | @next named parts text others h _ ih =>
    obtain _ | @⟨_,next,_,_,_,hmember,hothers⟩ := htakes
    -- The space behind a member is what stands before the comma of the next.
    have hbehind (after : Text) (ha : IsSpace after) : MembersRead member false next
        (after ++ ',' :: (others ++ '\x7d' :: rest)) last rest := by
      have hnext := ih (.next ha isSpace_nil) hothers
      rwa [List.append_assoc] at hnext
    have hread := h.read hlead hmember (endsValue_cons (.inl rfl) _) hbehind
    simpa using hread

/-- An object is read to its closing bracket. -/
theorem IsObject.read (h : IsObject parts text) (htakes : Takes member state parts last)
    (rest : Text) :
    ∃ body, text ++ rest = '\x7b' :: body ∧ members member state body = .ok (last, rest) := by
  cases h with
  | @empty space hs =>
    cases htakes with
    | nil =>
      refine ⟨space ++ '\x7d' :: rest,by simp,?_⟩
      exact (MembersRead.closed true state rest hs).members_eq
  | @filled _ text h =>
    refine ⟨text ++ '\x7d' :: rest,by simp,?_⟩
    exact (h.read (.first isSpace_nil) htakes rest).members_eq

end ShellAlias.Json
