import ShellAlias.Words

namespace ShellAlias.Words

def Mode.pending : Mode → Text
  | .betweenBackslash => ['\\']
  | .plainBackslash => ['\\']
  | .doubleBackslash => ['\\']
  | _ => []

/-- A word is made of what it starts with and of characters of the line. -/
theorem mem_of_mem_wordsFrom {mode : Mode} {word rest : Text} {words : List Text}
    (h : wordsFrom mode word rest = some words) :
    ∀ one ∈ words, ∀ c ∈ one, c ∈ word ∨ c ∈ mode.pending ∨ c ∈ rest := by
  fun_induction wordsFrom mode word rest generalizing words
  -- each step takes one character, which goes into the word, is kept back or is dropped
  all_goals grind [Mode.pending,Option.map_eq_some_iff]

theorem mem_of_mem_split {line : Text} {words : List Text} (h : split line = some words) :
    ∀ word ∈ words, ∀ c ∈ word, c ∈ line := by
  intro word hm c hc
  rcases mem_of_mem_wordsFrom h word hm c hc with hc | hc | hc
  · contradiction
  · contradiction
  · exact hc

inductive Typed where
  | bare (word : Text)
  | quoted (word : Text)

namespace Typed

def word : Typed → Text
  | .bare word => word
  | .quoted word => word

def text : Typed → Text
  | .bare word => word
  | .quoted word => ['\''] ++ word ++ ['\'']

/-- No character of the word has a meaning of its own: a bare one is of letters and
equals signs, and one in quotes holds anything but such a quote. -/
def IsPlain : Typed → Prop
  | .bare word => word ≠ [] ∧ ∀ c ∈ word, c.isAlpha = true ∨ c = '='
  | .quoted word => '\'' ∉ word

end Typed

/-- What is relied on of the rules of shell words: plain words, one space apart, are
found as they are. -/
def FindsPlain (split : Text → Option (List Text)) : Prop :=
  ∀ typed : List Typed, (∀ one ∈ typed, one.IsPlain) →
    split (List.intercalate [' '] (typed.map Typed.text)) = some (typed.map Typed.word)

/-- What is relied on where a line is no more than a command: nothing is found behind it. -/
def FindsBare (split : Text → Option (List Text)) (command : Text) : Prop :=
  (split command).map List.tail = some []

/-- A character that stands for itself wherever a word may be: it ends none, and quotes,
escapes and comments nothing. -/
def IsOrdinary (c : Char) : Prop :=
  isDelimiter c = false ∧ c ≠ '\'' ∧ c ≠ '"' ∧ c ≠ '\\' ∧ c ≠ '#'

instance (c : Char) : Decidable (IsOrdinary c) := inferInstanceAs (Decidable (_ ∧ _))

theorem isOrdinary_of_letter {c : Char} (h : c.isAlpha = true ∨ c = '=') : IsOrdinary c := by
  have hother {d : Char} (hd : d.isAlpha = false) (hsign : d ≠ '=') : c ≠ d := by
    rintro rfl
    rcases h with h | h
    · simp [hd] at h
    · exact hsign h
  have hspace : c ≠ ' ' := hother (by decide) (by decide)
  have htab : c ≠ '\t' := hother (by decide) (by decide)
  have hfeed : c ≠ '\n' := hother (by decide) (by decide)
  refine ⟨by simp [isDelimiter,hspace,htab,hfeed],?_,?_,?_,?_⟩
  all_goals exact hother (by decide) (by decide)

theorem wordsFrom_ordinary {c : Char} (h : IsOrdinary c) (word rest : Text) :
    wordsFrom .between word (c :: rest) = wordsFrom .plain (word ++ [c]) rest ∧
      wordsFrom .plain word (c :: rest) = wordsFrom .plain (word ++ [c]) rest := by
  obtain ⟨hdelimiter,hsingle,hdouble,hback,hcomment⟩ := h
  simp [wordsFrom,hdelimiter,hsingle,hdouble,hback,hcomment]

theorem wordsFrom_plain_run {run : Text} (h : ∀ c ∈ run, IsOrdinary c) (word rest : Text) :
    wordsFrom .plain word (run ++ rest) = wordsFrom .plain (word ++ run) rest := by
  induction run generalizing word with
  | nil => simp
  | cons c run ih =>
    obtain ⟨hc,hrun⟩ := List.forall_mem_cons.mp h
    rw [List.cons_append,(wordsFrom_ordinary hc word _).2,ih hrun,List.append_assoc]
    rfl

theorem wordsFrom_between_run {run : Text} (hne : run ≠ []) (h : ∀ c ∈ run, IsOrdinary c)
    (rest : Text) : wordsFrom .between [] (run ++ rest) = wordsFrom .plain run rest := by
  obtain ⟨c,others,rfl⟩ := List.exists_cons_of_ne_nil hne
  obtain ⟨hc,hothers⟩ := List.forall_mem_cons.mp h
  refine ((wordsFrom_ordinary hc [] (others ++ rest)).1).trans ?_
  exact wordsFrom_plain_run hothers [c] rest

theorem wordsFrom_single {quoted : Text} (h : '\'' ∉ quoted) (word rest : Text) :
    wordsFrom .single word (quoted ++ '\'' :: rest) = wordsFrom .plain (word ++ quoted) rest := by
  induction quoted generalizing word with
  | nil => simp [wordsFrom]
  | cons c quoted ih =>
    rw [List.mem_cons,not_or] at h
    have hc : c ≠ '\'' := fun he => h.1 he.symm
    rw [List.cons_append,wordsFrom,if_neg hc,ih h.2,List.append_assoc]
    rfl

/-- A plain word is read up to its end, where the reader may still go on with it. -/
theorem wordsFrom_typed {one : Typed} (h : one.IsPlain) (rest : Text) :
    wordsFrom .between [] (one.text ++ rest) = wordsFrom .plain one.word rest := by
  cases one with
  | bare word =>
    exact wordsFrom_between_run h.1 (fun c hc => isOrdinary_of_letter (h.2 c hc)) rest
  | quoted word =>
    have hopen : wordsFrom .between [] ('\'' :: (word ++ '\'' :: rest)) =
        wordsFrom .single [] (word ++ '\'' :: rest) := by simp [wordsFrom]
    have htext : (Typed.quoted word).text ++ rest = '\'' :: (word ++ '\'' :: rest) := by
      simp [Typed.text]
    rw [htext,hopen]
    exact wordsFrom_single h [] rest

theorem split_findsPlain : FindsPlain split := by
  intro typed
  induction typed with
  | nil => intro _; rfl
  | cons one typed ih =>
    intro h
    obtain ⟨hone,htyped⟩ := List.forall_mem_cons.mp h
    cases typed with
    | nil =>
      have hread := wordsFrom_typed hone []
      rw [List.append_nil] at hread
      simp only [List.map_cons,List.map_nil,List.intercalate_singleton,split,hread,wordsFrom]
    | cons other typed =>
      have hrest := ih htyped
      rw [split] at hrest
      rw [List.map_cons,List.map_cons,List.intercalate_cons_cons,← List.map_cons,split,
        List.append_assoc,wordsFrom_typed hone]
      have hgap : wordsFrom .plain one.word
          ([' '] ++ List.intercalate [' '] ((other :: typed).map Typed.text)) =
          (wordsFrom .between []
            (List.intercalate [' '] ((other :: typed).map Typed.text))).map (one.word :: ·) := by
        simp [wordsFrom,isDelimiter]
      rw [hgap,hrest]
      rfl

def Begins (word : Text) (words : List Text) : Prop := ∃ first ∈ words.head?, word <+: first

theorem begins_cons (word : Text) (words : List Text) : Begins word (word :: words) :=
  ⟨word,rfl,List.prefix_rfl⟩

theorem Begins.of_append {word more : Text} {words : List Text} (h : Begins (word ++ more) words) :
    Begins word words := by
  obtain ⟨first,hfirst,hstart⟩ := h
  exact ⟨first,hfirst,(List.prefix_append word more).trans hstart⟩

/-- What is relied on of the rules of shell words at the front of a line: ordinary
characters make up a word, and it ends only at a space, a tab, a line feed or the end of
the line. -/
structure FindsFirst (split : Text → Option (List Text)) : Prop where
  ends : ∀ word rest, word ≠ [] → (∀ c ∈ word, IsOrdinary c) →
    (∀ c ∈ rest.head?, isDelimiter c = true) →
    split (word ++ rest) = (split rest.tail).map (word :: ·)
  goesOn : ∀ word rest words, word ≠ [] → (∀ c ∈ word, IsOrdinary c) →
    split (word ++ rest) = some words → Begins word words

def Mode.isInside : Mode → Bool
  | .between => false
  | .betweenBackslash => false
  | .comment => false
  | _ => true

/-- A word that is read on in is not lost: what comes goes behind it. -/
theorem begins_wordsFrom {mode : Mode} {word rest : Text} {words : List Text}
    (hmode : mode.isInside = true) (h : wordsFrom mode word rest = some words) :
    Begins word words := by
  fun_induction wordsFrom mode word rest generalizing words
  all_goals grind [Mode.isInside,Begins.of_append,begins_cons,Option.map_eq_some_iff]

theorem split_findsFirst : FindsFirst split := by
  refine ⟨?_,?_⟩
  · intro word rest hne hword hrest
    rw [split,wordsFrom_between_run hne hword]
    cases rest with
    | nil => rfl
    | cons c rest =>
      have hc := hrest c rfl
      have hmeaning : c ≠ '\'' ∧ c ≠ '"' ∧ c ≠ '\\' := by
        simp only [isDelimiter,Bool.or_eq_true,decide_eq_true_eq] at hc
        rcases hc with (rfl | rfl) | rfl <;> decide
      simp [wordsFrom,split,hc,hmeaning]
  · intro word rest words hne hword h
    rw [split,wordsFrom_between_run hne hword] at h
    exact begins_wordsFrom rfl h

end ShellAlias.Words
