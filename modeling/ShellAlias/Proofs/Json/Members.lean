import ShellAlias.Json.Container
import ShellAlias.Proofs.Json.Token

namespace ShellAlias.Json

theorem map_eq_ok_iff {ε α β : Type} {read : Except ε α} {f : α → β} {b : β} :
    read.map f = .ok b ↔ ∃ a, read = .ok a ∧ f a = b := by
  cases read with
  | error e => simp [Except.map]
  | ok a => simp [Except.map]

theorem string_length {text value rest : Text} (h : string text = .ok (value, rest)) :
    rest.length < text.length := by
  fun_induction string text generalizing value rest with
  | case1 => contradiction
  | case2 => simp_all
  | case3 => contradiction
  | case4 =>
    rename_i ih
    obtain ⟨_,hafter,hpair⟩ := map_eq_ok_iff.mp h
    obtain ⟨_,rfl⟩ := Prod.mk.inj hpair
    have := escape_length ‹escape _ = _›
    have := ih hafter
    simp only [List.length_cons]
    omega
  | case5 => contradiction
  | case6 =>
    rename_i ih
    obtain ⟨_,hafter,hpair⟩ := map_eq_ok_iff.mp h
    obtain ⟨_,rfl⟩ := Prod.mk.inj hpair
    have := ih hafter
    simp only [List.length_cons]
    omega

theorem colon_append {space : Text} (hs : IsSpace space) (rest : Text) :
    colon (space ++ ':' :: rest) = .ok rest := by
  rw [colon,skipSpace_append hs]
  rfl

theorem nextMember_closed (first : Bool) {space : Text} (hs : IsSpace space) (rest : Text) :
    nextMember first (space ++ '\x7d' :: rest) = .ok (.closed rest) := by
  rw [nextMember,skipSpace_append hs]
  rfl

inductive Lead : (first : Bool) → Text → Prop where
  | first {space : Text} (hs : IsSpace space) : Lead true space
  | next {space gap : Text} (hs : IsSpace space) (hg : IsSpace gap) :
      Lead false (space ++ ',' :: gap)

theorem nextMember_key {first : Bool} {lead : Text} (h : Lead first lead) (rest : Text) :
    nextMember first (lead ++ '"' :: rest) = .ok (.key rest) := by
  cases h with
  | first hs =>
    rw [nextMember,skipSpace_append hs]
    rfl
  | next hs hg =>
    rw [nextMember,List.append_assoc,skipSpace_append hs,List.cons_append,skipSpace_cons rfl]
    simp only [skipSpace_append hg,skipSpace_cons (show isSpace '"' = false from rfl)]
    rfl

/-- Members are gone through up to a closing bracket. Each of them takes the state to
the next and leaves no more text than there was after its key. -/
inductive MembersRead {σ : Type} (member : σ → Text → Text → Step σ) :
    (first : Bool) → σ → Text → σ → Text → Prop where
  | closed (first : Bool) (state : σ) {space : Text} (rest : Text) (hs : IsSpace space) :
      MembersRead member first state (space ++ '\x7d' :: rest) state rest
  | member {first : Bool} {state next last : σ} {lead text key value others rest : Text}
      (hlead : Lead first lead) (hkey : string text = .ok (key, value))
      (hvalue : member state key value = .ok (next, others))
      (hlength : others.length ≤ value.length)
      (hothers : MembersRead member false next others last rest) :
      MembersRead member first state (lead ++ '"' :: text) last rest

variable {σ : Type} {member : σ → Text → Text → Step σ} {state last : σ} {text rest : Text}

theorem MembersRead.membersFrom_eq {first : Bool}
    (h : MembersRead member first state text last rest) {fuel : Nat} (hf : text.length < fuel) :
    membersFrom member fuel first state text = .ok (last, rest) := by
  induction h generalizing fuel with
  | closed first state rest hs =>
    obtain ⟨fuel,rfl⟩ := Nat.exists_eq_succ_of_ne_zero (Nat.ne_zero_of_lt hf)
    rw [membersFrom,nextMember_closed first hs]
  | member hlead hkey hvalue hlength _ ih =>
    obtain ⟨fuel,rfl⟩ := Nat.exists_eq_succ_of_ne_zero (Nat.ne_zero_of_lt hf)
    have := string_length hkey
    rw [List.length_append,List.length_cons] at hf
    simp only [membersFrom,nextMember_key hlead,hkey,hvalue]
    exact ih (by omega)

theorem MembersRead.members_eq (h : MembersRead member true state text last rest) :
    members member state text = .ok (last, rest) :=
  h.membersFrom_eq (Nat.lt_succ_self _)

end ShellAlias.Json
