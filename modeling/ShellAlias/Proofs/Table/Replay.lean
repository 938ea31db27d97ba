import ShellAlias.Proofs.Table.Refusals
import ShellAlias.Proofs.Text.Lines

namespace ShellAlias

namespace Outcome

variable {first : Outcome Table Nat} {next later : Table → Outcome Table Nat}

/-- What is counted by one operation and then by another, which starts with the table
that the first leaves and is left out if the first fails. -/
def andThen (first : Outcome Table Nat) (next : Table → Outcome Table Nat) : Outcome Table Nat :=
  match first.result with
  | .error _ => first
  | .ok n =>
    let second := next first.state
    { result := second.result.map (n + ·)
      state := second.state
      log := first.log ++ second.log }

theorem andThen_of_error {error : AliasError} (h : first.result = .error error) :
    first.andThen next = first := by
  rw [andThen,h]

theorem andThen_of_ok {n : Nat} (h : first.result = .ok n) :
    first.andThen next =
      { result := (next first.state).result.map (n + ·)
        state := (next first.state).state
        log := first.log ++ (next first.state).log } := by
  rw [andThen,h]

theorem andThen_error_iff {error : AliasError} :
    (first.andThen next).result = .error error ↔ first.result = .error error ∨
      ∃ n, first.result = .ok n ∧ (next first.state).result = .error error := by
  cases hfirst : first.result with
  | error other => simp [andThen_of_error hfirst,hfirst]
  | ok n =>
    rw [andThen_of_ok hfirst]
    cases (next first.state).result <;> simp [Except.map]

theorem andThen_assoc :
    (first.andThen next).andThen later = first.andThen fun after => (next after).andThen later := by
  cases hfirst : first.result with
  | error error => rw [andThen_of_error hfirst,andThen_of_error hfirst,andThen_of_error hfirst]
  | ok n =>
    rw [andThen_of_ok hfirst,andThen_of_ok hfirst]
    cases hnext : (next first.state).result with
    | error error =>
      rw [andThen_of_error rfl,andThen_of_error hnext,hnext]
    | ok m =>
      rw [andThen_of_ok rfl,andThen_of_ok hnext,List.append_assoc]
      congr 1
      cases (later (next first.state).state).result with
      | error error => rfl
      | ok k => exact congrArg Except.ok (Nat.add_assoc n m k)

end Outcome

namespace Table

variable {table : Table} {line : Text} {lines : List Text} {error : AliasError}

/-- Why a replay stops at a line: it cannot be read, or the limits refuse what it says. -/
inductive StopsAt (table : Table) (line : Text) : AliasError → Prop where
  | malformed (unread : Listing.entryOfLine? line = none) :
      StopsAt table line (.malformedListing line)
  | refused {entry : Entry} {error : AliasError}
      (read : Listing.entryOfLine? line = some entry)
      (refused : Refused table.settings entry.key entry.value error) : StopsAt table line error

/-- The lines of a replay are replayed one by one. -/
theorem replayLines_cons (table : Table) (line : Text) (lines : List Text) :
    table.replayLines (line :: lines) =
      (table.replayLines [line]).andThen fun after => after.replayLines lines := by
  simp only [replayLines]
  cases Listing.parse line with
  | error error => rfl
  | ok entry =>
    dsimp only
    cases hr : (table.restore entry.key entry.value).result with
    | error error => rfl
    | ok _ =>
      rw [Outcome.andThen_of_ok rfl]
      simp only [List.append_nil,Nat.zero_add,Nat.add_comm]

theorem replayLines_append (table : Table) (lines others : List Text) :
    table.replayLines (lines ++ others) =
      (table.replayLines lines).andThen fun after => after.replayLines others := by
  induction lines generalizing table with
  | nil =>
    have hsame : (table.replayLines others).result.map (0 + ·) =
        (table.replayLines others).result := by
      cases (table.replayLines others).result with
      | error error => rfl
      | ok n => exact congrArg Except.ok (Nat.zero_add n)
    rw [replayLines,Outcome.andThen_of_ok rfl,hsame]
    rfl
  | cons line lines ih =>
    rw [List.cons_append,replayLines_cons table line (lines ++ others),
      replayLines_cons table line lines,Outcome.andThen_assoc]
    simp only [ih]

/-- A line that stops a replay changes nothing. -/
theorem replayLines_of_stopsAt (h : StopsAt table line error) (lines : List Text) :
    (table.replayLines (line :: lines)).result = .error error ∧
      (table.replayLines (line :: lines)).state = table := by
  rw [replayLines,Listing.parse]
  cases h with
  | malformed unread => simp only [unread,and_self]
  | @refused entry _ read refused =>
    have hr := restore_of_refused refused
    simp only [read,hr,true_and]
    exact state_of_restore_error hr

/-- Any other line is restored and counted. -/
theorem stopsAt_or_counted (table : Table) (line : Text) :
    (∃ error, StopsAt table line error) ∨ (table.replayLines [line]).result = .ok 1 := by
  rw [replayLines,Listing.parse]
  cases hp : Listing.entryOfLine? line with
  | none => exact Or.inl ⟨_,.malformed hp⟩
  | some entry =>
    dsimp only
    cases hr : (table.restore entry.key entry.value).result with
    | error error => exact Or.inl ⟨error,.refused hp (restore_error_iff.mp hr)⟩
    | ok _ => exact Or.inr rfl

/-- A replay that fails was stopped by a line, with those before it replayed. -/
theorem exists_stopsAt_of_replayLines (h : (table.replayLines lines).result = .error error) :
    ∃ before line after n, lines = before ++ line :: after ∧
      (table.replayLines before).result = .ok n ∧
      StopsAt (table.replayLines before).state line error := by
  induction lines generalizing table with
  | nil => contradiction
  | cons line lines ih =>
    rw [replayLines_cons,Outcome.andThen_error_iff] at h
    rcases stopsAt_or_counted table line with ⟨other,hstops⟩ | hline
    · obtain ⟨hother,_⟩ := replayLines_of_stopsAt hstops []
      rw [hother] at h
      rcases h with h | ⟨_,hok,_⟩
      · exact ⟨[],line,lines,0,rfl,rfl,Except.error.inj h ▸ hstops⟩
      · contradiction
    · rw [hline] at h
      rcases h with h | ⟨_,_,hlater⟩
      · contradiction
      · obtain ⟨first,stop,after,n,rfl,hfirst,hstops⟩ := ih hlater
        refine ⟨line :: first,stop,after,1 + n,rfl,?_⟩
        rw [replayLines_cons,Outcome.andThen_of_ok hline]
        exact ⟨congrArg (Except.map (1 + ·)) hfirst,hstops⟩

theorem replay_append (table : Table) {first : Text} (closed : first.IsClosed) (rest : Text) :
    table.replay (first ++ rest) = (table.replay first).andThen fun after => after.replay rest := by
  simp only [replay]
  rw [Text.lines_append closed,List.filter_append,replayLines_append]

/-- A replay comes to the end of a closed text, and the first line behind it stops it. -/
structure StopsAfter (table : Table) (before rest : Text) (error : AliasError) : Prop where
  closed : before.IsClosed
  replayed : ∃ n, (table.replay before).result = .ok n
  stopped : ∃ line, (Text.lines rest).head? = some line ∧ Text.isBlankText line = false ∧
    StopsAt (table.replay before).state line error

theorem replay_of_stopsAfter {before rest : Text} (h : StopsAfter table before rest error) :
    (table.replay (before ++ rest)).result = .error error ∧
      (table.replay (before ++ rest)).state = (table.replay before).state := by
  obtain ⟨closed,⟨n,hbefore⟩,line,hline,hvisible,hstops⟩ := h
  obtain ⟨others,hlines⟩ := List.head?_eq_some_iff.mp hline
  let visible := others.filter fun line => !Text.isBlankText line
  have hrest : (table.replay before).state.replay rest =
      (table.replay before).state.replayLines (line :: visible) := by
    simp only [replay,hlines,List.filter_cons,hvisible,Bool.not_false,↓reduceIte,visible]
  obtain ⟨hresult,hstate⟩ := replayLines_of_stopsAt hstops visible
  rw [replay_append table closed,Outcome.andThen_of_ok hbefore,hrest]
  exact ⟨congrArg (Except.map (n + ·)) hresult,hstate⟩

/-- A replay that fails was stopped behind some closed text. -/
theorem exists_stopsAfter {text : Text} (h : (table.replay text).result = .error error) :
    ∃ before rest, text = before ++ rest ∧ StopsAfter table before rest error := by
  obtain ⟨passed,line,after,n,hlines,hpassed,hstops⟩ := exists_stopsAt_of_replayLines h
  obtain ⟨front,back,hfront,rfl,hback⟩ := List.filter_eq_append_iff.mp hlines
  obtain ⟨blank,others,rfl,hblank,hvisible,_⟩ := List.filter_eq_cons_iff.mp hback
  rw [← List.append_assoc] at hfront
  obtain ⟨before,rest,rfl,closed,hbefore,hrest⟩ :=
    Text.exists_append_of_lines hfront (List.cons_ne_nil _ _)
  have hreplay : table.replay before =
      table.replayLines (front.filter fun line => !Text.isBlankText line) := by
    rw [replay,hbefore,List.filter_append,List.filter_eq_nil_iff.mpr hblank,List.append_nil]
  refine ⟨before,rest,rfl,closed,⟨n,hreplay ▸ hpassed⟩,line,?_,?_,hreplay ▸ hstops⟩
  · rw [hrest]
    rfl
  · simpa using hvisible

/-- A replay of a closed text and more is a replay of the first and then of the rest. If
the first fails, nothing comes of the rest. Every failure is that of a line which cannot be
read or is refused, and leaves what the text before that line leaves. -/
theorem replay_composes (table : Table) :
    (∀ first : Text, first.IsClosed → ∀ rest : Text,
      (∀ error, (table.replay first).result = .error error →
        table.replay (first ++ rest) = table.replay first) ∧
      ∀ n, (table.replay first).result = .ok n →
        let second := (table.replay first).state.replay rest
        table.replay (first ++ rest) =
          { result := second.result.map (n + ·)
            state := second.state
            log := (table.replay first).log ++ second.log }) ∧
      (∀ text error, (table.replay text).result = .error error ↔
        ∃ before rest, text = before ++ rest ∧ StopsAfter table before rest error) ∧
      ∀ before rest error, StopsAfter table before rest error →
        (table.replay (before ++ rest)).state = (table.replay before).state := by
  refine ⟨fun first closed rest => ⟨?_,?_⟩,fun text error => ⟨exists_stopsAfter,?_⟩,?_⟩
  · intro error hfirst
    rw [replay_append table closed,Outcome.andThen_of_error hfirst]
  · intro n hfirst
    exact (replay_append table closed rest).trans (Outcome.andThen_of_ok hfirst)
  · rintro ⟨before,rest,rfl,h⟩
    exact (replay_of_stopsAfter h).1
  · intro before rest error h
    exact (replay_of_stopsAfter h).2

/-- A listing with returns and blank lines goes on behind its end, and stops there at a
value that is too long. A line that cannot be read stops it for good. -/
theorem replay_composes_long_value :
    let settings : Settings := { maxValueLength := 2, truncation := .reject }
    let table : Table := { settings }
    let first : Text := "alias a = 'x'\r\n\t\n\nalias b = 'y'\n".toList
    let rest := "alias a = 'z'".toList
    let long := "alias a = 'x y'\r\nalias c = 'z'".toList
    let broken := "alias a = 'x'\nalias b\n".toList
    first.IsClosed ∧ (table.replay first).result = .ok 2 ∧
      (table.replay (first ++ rest)).result = .ok 3 ∧
      (table.replay (first ++ rest)).state.entries = [⟨['b'],['y']⟩,⟨['a'],['z']⟩] ∧
      (table.replay (first ++ long)).result = .error (.tooLong .value 3 2) ∧
      (table.replay (first ++ long)).state = (table.replay first).state ∧
      (table.replay broken).result = .error (.malformedListing "alias b".toList) ∧
      table.replay (broken ++ rest) = table.replay broken := by
  intro settings table first rest long broken
  have closed : first.IsClosed := by decide
  have hfirst : (table.replay first).result = .ok 2 := rfl
  have hbroken : (table.replay broken).result = .error (.malformedListing "alias b".toList) := rfl
  have stops : StopsAfter table first long (.tooLong .value 3 2) :=
    ⟨closed,⟨2,hfirst⟩,"alias a = 'x y'".toList,by decide,by decide,
      .refused (show _ = some ⟨['a'],['x',' ','y']⟩ by decide)
        (.longValue (by decide) rfl (by decide) (by decide))⟩
  obtain ⟨composes,hfails,hkeeps⟩ := replay_composes table
  have hgoes := (composes first closed rest).2 2 hfirst
  refine ⟨closed,hfirst,?_,?_,(hfails _ _).mpr ⟨first,long,rfl,stops⟩,hkeeps _ _ _ stops,hbroken,
    (composes broken (by decide) rest).1 _ hbroken⟩
  · rw [hgoes]
    rfl
  · rw [hgoes]
    rfl

end Table
end ShellAlias
