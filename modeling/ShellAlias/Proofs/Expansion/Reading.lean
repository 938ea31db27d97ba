import Mathlib.Data.List.Nodup
import ShellAlias.Proofs.CommandPosition
import ShellAlias.Proofs.Expansion.Visit

namespace ShellAlias

/-- Aliases that cannot get in each other's way: whole words for keys, and
values that hold no key, start no command and are not just spaces. -/
structure Independent (entries : List Entry) : Prop where
  distinct : (entries.map Entry.key).Nodup
  nonempty : ∀ entry ∈ entries, entry.key ≠ []
  isWord : ∀ entry ∈ entries, CommandPosition.IsWord entry.key
  noSentinel : ∀ entry ∈ entries, entry.key.head? ≠ some Occurrence.sentinel
  noSeparator : ∀ entry ∈ entries, ∀ c ∈ entry.value, CommandPosition.isSeparator c = false
  noBackslash : ∀ entry ∈ entries, '\\' ∉ entry.value
  visible : ∀ entry ∈ entries, ∃ c ∈ entry.value, c ≠ ' ' ∧ c ≠ '\t'
  noKey : ∀ entry ∈ entries, ∀ other ∈ entries, ¬ other.key <:+: entry.value

/-- The key of an alias stands right after `before`, and the shell's rule takes
it for a command word. -/
def ValidAt (entries : List Entry) (text before : Text) (entry : Entry) : Prop :=
  entry ∈ entries ∧ ∃ after, text = before ++ entry.key ++ after ∧
    Occurrence.classify entry.key text (Text.size before) CommandPosition.shell = .valid

/-- A character of a line, or a word of it that an alias stands for. -/
inductive Token where
  | char (c : Char)
  | word (entry : Entry)
  deriving DecidableEq, Repr

namespace Token

def typed : Token → Text
  | .char c => [c]
  | .word entry => entry.key

def meant : Token → Text
  | .char c => [c]
  | .word entry => entry.value

def source (tokens : List Token) : Text := tokens.flatMap typed

def target (tokens : List Token) : Text := tokens.flatMap meant

def words : List Token → List (Text × Entry)
  | [] => []
  | .char c :: tokens => (words tokens).map fun (before, entry) => (c :: before, entry)
  | .word entry :: tokens =>
    ([], entry) :: (words tokens).map fun (before, other) => (entry.key ++ before, other)

theorem source_append (a b : List Token) : source (a ++ b) = source a ++ source b :=
  List.flatMap_append

theorem target_append (a b : List Token) : target (a ++ b) = target a ++ target b :=
  List.flatMap_append

theorem source_word (entry : Entry) (tokens : List Token) :
    source (.word entry :: tokens) = entry.key ++ source tokens := rfl

theorem target_word (entry : Entry) (tokens : List Token) :
    target (.word entry :: tokens) = entry.value ++ target tokens := rfl

theorem source_chars (text : Text) : source (text.map .char) = text := by
  simp [source,List.flatMap_map,typed]

theorem target_chars (text : Text) : target (text.map .char) = text := by
  simp [target,List.flatMap_map,meant]

theorem words_chars (text : Text) : words (text.map .char) = [] := by
  induction text with
  | nil => rfl
  | cons c text ih => simp [words,ih]

theorem words_append (a b : List Token) :
    words (a ++ b) =
      words a ++ (words b).map fun (before, entry) => (source a ++ before, entry) := by
  induction a with
  | nil => simp [words,source]
  | cons token a ih =>
    cases token <;> simp [words,ih,source,typed,Function.comp_def]

theorem mem_words_around_word {a b : List Token} {entry other : Entry} {place : Text} :
    (place, other) ∈ words (a ++ .word entry :: b) ↔
      (place, other) ∈ words a ∨ (place = source a ∧ other = entry) ∨
        ∃ tail, place = source a ++ entry.key ++ tail ∧ (tail, other) ∈ words b := by
  simp only [words_append,words,List.map_cons,List.map_map,List.mem_append,List.mem_cons,
    List.mem_map,Prod.exists,Prod.mk.injEq,List.append_nil,Function.comp_apply]
  refine or_congr_right (or_congr_right ?_)
  constructor
  · intro h
    obtain ⟨tail,_,hm,rfl,rfl⟩ := h
    exact ⟨tail,by simp,hm⟩
  · intro h
    obtain ⟨tail,rfl,hm⟩ := h
    exact ⟨tail,other,hm,by simp,rfl⟩

theorem mem_words_around_chars {a b : List Token} {text place : Text} {other : Entry} :
    (place, other) ∈ words (a ++ (text.map .char ++ b)) ↔ (place, other) ∈ words a ∨
      ∃ tail, place = source a ++ text ++ tail ∧ (tail, other) ∈ words b := by
  simp only [words_append,words_chars,source_chars,List.nil_append,List.map_map,List.mem_append,
    List.mem_map,Prod.exists,Prod.mk.injEq,Function.comp_apply]
  refine or_congr_right ?_
  constructor
  · intro h
    obtain ⟨tail,_,hm,rfl,rfl⟩ := h
    exact ⟨tail,by simp,hm⟩
  · intro h
    obtain ⟨tail,rfl,hm⟩ := h
    exact ⟨tail,other,hm,by simp,rfl⟩

theorem target_of_words_eq_nil {tokens : List Token} (h : words tokens = []) :
    target tokens = source tokens := by
  induction tokens with
  | nil => rfl
  | cons token tokens ih =>
    cases token with
    | char c =>
      have ht := ih (by simpa [words] using h)
      simp only [target,source,List.flatMap_cons,meant,typed] at ht ⊢
      rw [ht]
    | word entry => simp [words] at h

/-- A word splits the line in what is before it and what is after it. -/
theorem exists_append_of_mem_words {tokens : List Token} {before : Text} {entry : Entry}
    (h : (before, entry) ∈ words tokens) :
    ∃ a b, tokens = a ++ .word entry :: b ∧ source a = before := by
  induction tokens generalizing before with
  | nil => simp [words] at h
  | cons token tokens ih =>
    cases token with
    | char c =>
      obtain ⟨⟨rest,other⟩,hm,he⟩ := List.mem_map.mp h
      obtain ⟨rfl,rfl⟩ := Prod.mk.inj he
      obtain ⟨a,b,rfl,rfl⟩ := ih hm
      exact ⟨.char c :: a,b,rfl,rfl⟩
    | word first =>
      rcases List.mem_cons.mp h with he | hlater
      · obtain ⟨rfl,rfl⟩ := Prod.mk.inj he
        exact ⟨[],tokens,rfl,rfl⟩
      · obtain ⟨⟨rest,other⟩,hm,he⟩ := List.mem_map.mp hlater
        obtain ⟨rfl,rfl⟩ := Prod.mk.inj he
        obtain ⟨a,b,rfl,rfl⟩ := ih hm
        exact ⟨.word first :: a,b,rfl,rfl⟩

theorem length_lt_of_mem_words {tokens : List Token} {before : Text} {entry : Entry}
    (h : (before, entry) ∈ words tokens) (hne : entry.key ≠ []) :
    before.length < (source tokens).length := by
  obtain ⟨a,b,rfl,rfl⟩ := exists_append_of_mem_words h
  have hpos := List.length_pos_iff.mpr hne
  rw [source_append,source_word,List.length_append,List.length_append]
  omega

end Token

section
variable {entries : List Entry}

/-- Only the shell's rule decides about the key of an independent alias. -/
theorem Independent.validAt_iff (h : Independent entries) {text before : Text} {entry : Entry} :
    ValidAt entries text before entry ↔ entry ∈ entries ∧ ∃ after,
      text = before ++ entry.key ++ after ∧ CommandPosition.startsCommand before = true ∧
        CommandPosition.endsWord after = true := by
  constructor
  · intro hv
    obtain ⟨hm,after,rfl,hc⟩ := hv
    have hc : (Visit.make CommandPosition.shell entry.key before after).occurrence = .valid := hc
    have hrule := (Visit.valid_iff.mp hc).2.resolve_left (h.noSentinel entry hm)
    rw [CommandPosition.shell_append,Bool.and_eq_true] at hrule
    exact ⟨hm,after,rfl,hrule⟩
  · intro hv
    obtain ⟨hm,after,rfl,hs,he⟩ := hv
    refine ⟨hm,after,rfl,?_⟩
    have hlast : before.getLast? ≠ some '\\' := by
      intro hl
      obtain ⟨front,rfl⟩ := List.getLast?_eq_some_iff.mp hl
      rw [CommandPosition.startsCommand_concat] at hs
      simp [CommandPosition.isSeparator] at hs
    have hrule : CommandPosition.shell entry.key (before ++ entry.key ++ after)
        (Text.size before) = true := by
      rw [CommandPosition.shell_append,hs,he]
      rfl
    exact Visit.valid_iff.mpr ⟨hlast,Or.inr hrule⟩

/-- Two command words of a line are the same one, or one stands before the other. -/
theorem Independent.disjoint (h : Independent entries) {text a b : Text} {first second : Entry}
    (ha : ValidAt entries text a first) (hb : ValidAt entries text b second)
    (hle : a.length ≤ b.length) :
    (a = b ∧ first = second) ∨ ∃ c, b = a ++ first.key ++ c := by
  obtain ⟨hfirst,after,htext,hstarta,henda⟩ := h.validAt_iff.mp ha
  obtain ⟨hsecond,rest,hrest,hstartb,hendb⟩ := h.validAt_iff.mp hb
  rw [htext] at hrest
  rcases CommandPosition.IsWord.beside (h.isWord second hsecond)
    (CommandPosition.isBreak_of_endsWord henda (a ++ first.key)) hrest with
    ⟨c,hfront,hback⟩ | ⟨c,_,hb⟩
  · rw [List.append_assoc] at hrest
    rcases CommandPosition.IsWord.beside (h.isWord second hsecond)
      (CommandPosition.isBreak_of_startsCommand hstarta _) hrest with ⟨d,had,_⟩ | ⟨d,_,hbd⟩
    · have hlen := congrArg List.length had
      have hpos := List.length_pos_iff.mpr (h.nonempty second hsecond)
      simp only [List.length_append] at hlen
      omega
    · -- The second word lies within the first, which is a word.
      subst hbd hback
      have hkey : first.key = d ++ second.key ++ c := by simpa using hfront
      have hwords := h.isWord first hfirst
      rw [hkey,CommandPosition.IsWord.append,CommandPosition.IsWord.append] at hwords
      have hd : d = [] := by
        by_contra hne
        rw [CommandPosition.startsCommand_append_word a hwords.1.1 hne] at hstartb
        contradiction
      have hc : c = [] := by
        by_contra hne
        rw [CommandPosition.endsWord_append_word hwords.2 hne] at hendb
        contradiction
      left
      subst hd hc
      refine ⟨by simp,List.inj_on_of_nodup_map h.distinct hfirst hsecond ?_⟩
      simpa using hkey
  · exact Or.inr ⟨c,hb⟩

/-- The tokens stand for `rest` in a line, and their words are the command words
in it. -/
def Reading (entries : List Entry) (before rest : Text) (tokens : List Token) : Prop :=
  Token.source tokens = rest ∧ ∀ between entry,
    (between, entry) ∈ Token.words tokens ↔
      ValidAt entries (before ++ rest) (before ++ between) entry

theorem ValidAt.length_lt (h : Independent entries) {text before : Text} {entry : Entry}
    (hv : ValidAt entries text before entry) : before.length < text.length := by
  obtain ⟨hm,after,rfl,_⟩ := hv
  have hpos := List.length_pos_iff.mpr (h.nonempty entry hm)
  simp only [List.length_append]
  omega

theorem Independent.reading_nil (h : Independent entries) (before : Text) :
    Reading entries before [] [] := by
  refine ⟨rfl,?_⟩
  intro between entry
  simp only [Token.words,List.not_mem_nil,false_iff]
  intro hv
  have hlen := hv.length_lt h
  simp only [List.length_append,List.length_nil] at hlen
  omega

theorem Reading.char {before rest : Text} {c : Char} {tokens : List Token}
    (hv : ∀ entry, ¬ ValidAt entries (before ++ c :: rest) before entry)
    (hr : Reading entries (before ++ [c]) rest tokens) :
    Reading entries before (c :: rest) (.char c :: tokens) := by
  obtain ⟨hsource,hwords⟩ := hr
  refine ⟨by simp [Token.source,Token.typed,← hsource],?_⟩
  intro between entry
  have htext : before ++ [c] ++ rest = before ++ c :: rest := by simp
  simp only [Token.words,List.mem_map,Prod.exists,Prod.mk.injEq,hwords,htext]
  constructor
  · intro hb
    obtain ⟨tail,_,hb,rfl,rfl⟩ := hb
    simpa using hb
  · intro hb
    cases between with
    | nil => exact absurd (by simpa using hb) (hv entry)
    | cons d tail =>
      obtain ⟨_,after,hafter,_⟩ := id hb
      have hd : c = d := by
        rw [List.append_assoc,List.append_assoc,List.append_cancel_left_eq] at hafter
        exact (List.cons.inj hafter).1
      subst hd
      exact ⟨tail,entry,by simpa using hb,rfl,rfl⟩

theorem Independent.reading_word (h : Independent entries) {before after : Text} {entry : Entry}
    {tokens : List Token} (hv : ValidAt entries (before ++ entry.key ++ after) before entry)
    (hr : Reading entries (before ++ entry.key) after tokens) :
    Reading entries before (entry.key ++ after) (.word entry :: tokens) := by
  obtain ⟨hsource,hwords⟩ := hr
  refine ⟨by simp [Token.source,Token.typed,← hsource],?_⟩
  intro between other
  rw [← List.append_assoc]
  simp only [Token.words,List.mem_cons,List.mem_map,Prod.exists,Prod.mk.injEq,hwords]
  constructor
  · intro hb
    rcases hb with ⟨rfl,rfl⟩ | ⟨tail,_,hb,rfl,rfl⟩
    · simpa using hv
    · simpa using hb
  · intro hb
    rcases h.disjoint hv hb (by simp) with ⟨hnil,rfl⟩ | ⟨tail,htail⟩
    · left
      exact ⟨by simpa using hnil,rfl⟩
    · right
      rw [List.append_assoc,List.append_cancel_left_eq] at htail
      subst htail
      exact ⟨tail,other,by simpa using hb,rfl,rfl⟩

/-- Every line can be read. -/
theorem Independent.exists_reading (h : Independent entries) (before rest : Text) :
    ∃ tokens, Reading entries before rest tokens := by
  by_cases hv : ∃ entry, ValidAt entries (before ++ rest) before entry
  · obtain ⟨entry,hv⟩ := hv
    obtain ⟨hm,after,htext,_⟩ := id hv
    have hrest : rest = entry.key ++ after := by simpa using htext
    have hpos := List.length_pos_iff.mpr (h.nonempty entry hm)
    have hlen : after.length < rest.length := by
      rw [hrest,List.length_append]
      omega
    obtain ⟨tokens,hr⟩ := h.exists_reading (before ++ entry.key) after
    rw [hrest]
    exact ⟨_,h.reading_word (htext ▸ hv) hr⟩
  · cases rest with
    | nil => exact ⟨[],h.reading_nil before⟩
    | cons c rest =>
      obtain ⟨tokens,hr⟩ := h.exists_reading (before ++ [c]) rest
      exact ⟨_,.char (fun entry he => hv ⟨entry,he⟩) hr⟩
termination_by rest.length
decreasing_by
  · exact hlen
  · exact Nat.lt_succ_self _

variable {a b : List Token} {entry : Entry}

/-- The words in front of a word are the command words in front of it. -/
theorem Independent.mem_words_front (h : Independent entries)
    (hr : Reading entries [] (Token.source a ++ entry.key ++ Token.source b)
      (a ++ .word entry :: b)) {place : Text} {other : Entry} :
    (place, other) ∈ Token.words a ↔ place.length < (Token.source a).length ∧
      ValidAt entries (Token.source a ++ entry.key ++ Token.source b) place other := by
  have hwords := hr.2 place other
  rw [Token.mem_words_around_word] at hwords
  constructor
  · intro hm
    have hplace := hwords.mp (Or.inl hm)
    exact ⟨Token.length_lt_of_mem_words hm (h.nonempty other hplace.1),hplace⟩
  · intro hplace
    obtain ⟨hlt,hplace⟩ := hplace
    rcases hwords.mpr hplace with hm | ⟨rfl,_⟩ | ⟨tail,rfl,_⟩
    · exact hm
    · exact absurd hlt (Nat.lt_irrefl _)
    · simp only [List.length_append] at hlt
      omega

/-- The words behind a word are the command words behind it. -/
theorem Independent.mem_words_back (h : Independent entries)
    (hr : Reading entries [] (Token.source a ++ entry.key ++ Token.source b)
      (a ++ .word entry :: b)) {tail : Text} {other : Entry} :
    (tail, other) ∈ Token.words b ↔
      ValidAt entries (Token.source a ++ entry.key ++ Token.source b)
        (Token.source a ++ entry.key ++ tail) other := by
  have hwords (place : Text) (other : Entry) := hr.2 place other
  simp only [Token.mem_words_around_word,List.nil_append] at hwords
  have hentry := (hwords (Token.source a) entry).mp (Or.inr (Or.inl ⟨rfl,rfl⟩))
  have hpos := List.length_pos_iff.mpr (h.nonempty entry hentry.1)
  constructor
  · intro hm
    exact (hwords _ other).mp (Or.inr (Or.inr ⟨tail,rfl,hm⟩))
  · intro hplace
    rcases (hwords _ other).mpr hplace with hm | ⟨hhere,_⟩ | ⟨rest,hrest,hm⟩
    · have hlt := Token.length_lt_of_mem_words hm (h.nonempty other hplace.1)
      simp only [List.length_append] at hlt
      omega
    · have hlen := congrArg List.length hhere
      simp only [List.length_append] at hlen
      omega
    · rwa [List.append_cancel_left hrest]

end
end ShellAlias
