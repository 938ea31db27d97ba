import ShellAlias.Proofs.Json.Grammar
import ShellAlias.Proofs.Json.Members

namespace ShellAlias.Json

variable {rest : Text}

theorem exists_digit {places : Text} (hp : IsDigits places) :
    ∃ c others, places = c :: others ∧ c.isDigit = true := by
  obtain ⟨hne,hall⟩ := hp
  obtain ⟨c,others,rfl⟩ := List.exists_cons_of_ne_nil hne
  exact ⟨c,others,rfl,hall c List.mem_cons_self⟩

theorem skipDigits_append {places : Text} (hp : IsDigits places) (h : EndsDigits rest) :
    skipDigits (places ++ rest) = .ok rest := by
  have hdigits := digits_append hp.2 h
  obtain ⟨c,others,rfl,hc⟩ := exists_digit hp
  rw [List.cons_append,skipDigits,if_pos hc]
  rw [List.cons_append,digits,List.dropWhile_cons_of_pos hc] at hdigits
  exact congrArg Except.ok (congrArg Prod.snd hdigits)

theorem skipExponent_append {exponent : Text} (he : IsExponent exponent) (h : EndsValue rest) :
    skipExponent (exponent ++ rest) = .ok rest := by
  cases he with
  | none =>
    cases rest with
    | nil => rfl
    | cons c rest =>
      obtain ⟨_,_,hlow,hhigh⟩ := h.head
      simp [skipExponent,hlow,hhigh]
  | @power letter sign places hl hs hp =>
    have hskip := skipDigits_append hp h.endsDigits
    rw [List.cons_append,List.append_assoc]
    rcases hs with rfl | rfl | rfl
    · obtain ⟨c,others,rfl,hc⟩ := exists_digit hp
      have hplus : c ≠ '+' := ne_of_isDigit hc rfl
      have hminus : c ≠ '-' := ne_of_isDigit hc rfl
      simpa [skipExponent,hl,hplus,hminus] using hskip
    · simpa [skipExponent,hl] using hskip
    · simpa [skipExponent,hl] using hskip

theorem IsExponent.head_append {exponent : Text} (he : IsExponent exponent) (h : EndsValue rest)
    {c : Char} (hc : c ∈ (exponent ++ rest).head?) : c.isDigit = false ∧ c ≠ '.' := by
  cases he with
  | none =>
    cases rest with
    | nil => contradiction
    | cons d rest =>
      obtain ⟨hdigit,hpoint,_⟩ := h.head
      exact Option.some.inj hc ▸ ⟨hdigit,hpoint⟩
  | power hl =>
    obtain rfl := Option.some.inj hc
    rcases hl with rfl | rfl <;> decide

theorem skipFraction_append {fraction exponent : Text} (hf : IsFraction fraction)
    (he : IsExponent exponent) (h : EndsValue rest) :
    skipFraction (fraction ++ (exponent ++ rest)) = .ok rest := by
  have hexponent := skipExponent_append he h
  cases hf with
  | none =>
    rw [List.nil_append,skipFraction]
    · exact hexponent
    · intro others hw
      exact (he.head_append h (by rw [hw]; rfl)).2 rfl
  | point hp =>
    have hends : EndsDigits (exponent ++ rest) := fun c hc => (he.head_append h hc).1
    rw [List.cons_append,skipFraction,skipDigits_append hp hends]
    exact hexponent

theorem IsFraction.endsDigits {fraction exponent : Text} (hf : IsFraction fraction)
    (he : IsExponent exponent) (h : EndsValue rest) :
    EndsDigits (fraction ++ (exponent ++ rest)) := by
  cases hf with
  | none => exact fun c hc => (he.head_append h hc).1
  | point _ =>
    intro c hc
    obtain rfl := Option.some.inj hc
    rfl

theorem skipUnsigned_append {whole fraction exponent : Text} (hw : IsWhole whole)
    (hf : IsFraction fraction) (he : IsExponent exponent) (h : EndsValue rest) :
    skipUnsigned (whole ++ (fraction ++ (exponent ++ rest))) = .ok rest := by
  have hfraction := skipFraction_append hf he h
  have hends := hf.endsDigits he h
  generalize fraction ++ (exponent ++ rest) = behind at hfraction hends
  rcases hw with rfl | ⟨hp,hzero⟩
  · cases behind with
    | nil => exact hfraction
    | cons c others => simp [skipUnsigned,hends c rfl,hfraction]
  · have hdigits := skipDigits_append hp hends
    obtain ⟨c,others,rfl,_⟩ := exists_digit hp
    have hc : c ≠ '0' := fun hc => hzero (hc ▸ rfl)
    rw [List.cons_append] at hdigits ⊢
    rw [skipUnsigned]
    · simp only [hdigits,hfraction]
    · intro d others he
      exact hc (List.cons.inj he).1

theorem exists_digit_whole {whole : Text} (hw : IsWhole whole) :
    ∃ c others, whole = c :: others ∧ c.isDigit = true := by
  rcases hw with rfl | ⟨hp,_⟩
  · exact ⟨'0',[],rfl,rfl⟩
  · exact exists_digit hp

theorem skipScalar_of_isDigit {c : Char} (h : c.isDigit = true) (rest : Text) :
    skipScalar (c :: rest) = skipUnsigned (c :: rest) := by
  have hnull : c ≠ 'n' := ne_of_isDigit h rfl
  have htrue : c ≠ 't' := ne_of_isDigit h rfl
  have hfalse : c ≠ 'f' := ne_of_isDigit h rfl
  have hminus : c ≠ '-' := ne_of_isDigit h rfl
  simp only [skipScalar,hnull,htrue,hfalse,hminus,h,if_false,if_true]

theorem IsNumber.skipScalar {text : Text} (h : IsNumber text) (hends : EndsValue rest) :
    skipScalar (text ++ rest) = .ok rest := by
  cases h with
  | @parts sign whole fraction exponent hs hw hf he =>
    have hskip := skipUnsigned_append hw hf he hends
    simp only [List.append_assoc]
    rcases hs with rfl | rfl
    · obtain ⟨c,others,rfl,hc⟩ := exists_digit_whole hw
      exact (skipScalar_of_isDigit hc _).trans hskip
    · exact hskip

/-- The first character of a number is a sign or a digit, and no bracket. -/
theorem IsNumber.exists_head {text : Text} (h : IsNumber text) :
    ∃ c others, text = c :: others ∧ isSpace c = false ∧
      ∀ frame : Frame, c ≠ frame.opening ∧ c ≠ frame.closing := by
  cases h with
  | parts hs hw _ _ =>
    rcases hs with rfl | rfl
    · obtain ⟨c,others,rfl,hc⟩ := exists_digit_whole hw
      refine ⟨c,_,rfl,isSpace_of_isDigit hc,?_⟩
      intro frame
      cases frame <;> exact ⟨ne_of_isDigit hc rfl,ne_of_isDigit hc rfl⟩
    · refine ⟨'-',_,rfl,rfl,?_⟩
      intro frame
      cases frame <;> decide

theorem skipString_escape {escaped text after : Text} (he : skipEscape escaped = .ok text)
    (h : skipString text = .ok after) : skipString ('\\' :: escaped) = .ok after := by
  rw [skipString]
  simp only [if_true,if_neg (show '\\' ≠ '"' by decide)]
  split
  · rename_i hfault
    rw [he] at hfault
    contradiction
  · rename_i hread
    rw [he] at hread
    obtain rfl := Except.ok.inj hread
    exact h

theorem IsBody.skipString {body : Text} (h : IsBody body) (rest : Text) :
    skipString (body ++ '"' :: rest) = .ok rest := by
  induction h with
  | nil => simp [Json.skipString]
  | plain hc _ ih =>
    obtain ⟨hquote,hslash,hcontrol⟩ := hc
    rw [List.cons_append,Json.skipString]
    simp [hquote,hslash,hcontrol,ih]
  | short hc _ ih =>
    obtain ⟨hletter,hvalue⟩ := escapeChar?_of_mem hc
    refine skipString_escape ?_ ih
    simp [skipEscape,hletter,hvalue]
  | @unit digits text _ hn _ ih =>
    have hescape : skipEscape ('u' :: (digits ++ (text ++ '"' :: rest))) =
        .ok (text ++ '"' :: rest) := by
      simp [skipEscape,hn.hexEscape,Except.map]
    rw [← List.append_assoc] at hescape
    exact skipString_escape hescape ih

def skipItem (frame : Frame) (frames : List Frame) (text : Text) : Except Fault Text :=
  match frame.beforeValue text with
  | .error fault => .error fault
  | .ok rest => skipValue (frame :: frames) rest

/-- What skipping a value does, without the lengths that its definition keeps for
termination. -/
theorem skipValue_eq (frames : List Frame) (text : Text) :
    skipValue frames text =
      match skipSpace text with
      | '[' :: rest => skipOpened .list frames rest
      | '\x7b' :: rest => skipOpened .object frames rest
      | here =>
        match skipScalar here with
        | .error fault => .error fault
        | .ok rest => skipRest frames rest := by
  rw [skipValue]
  split
  · rename_i he
    rw [he]
    rfl
  · rename_i he
    rw [he]
    rfl
  · split <;> simp_all

theorem skipOpened_eq (frame : Frame) (frames : List Frame) (text : Text) :
    skipOpened frame frames text =
      match skipSpace text with
      | [] => giveUp frame.endProblem []
      | c :: rest =>
        if c = frame.closing then skipRest frames rest else skipItem frame frames (c :: rest) := by
  rw [skipOpened]
  split
  · rename_i he
    rw [he]
  · rename_i he
    rw [he]
    simp only [skipItem]
    split
    · rfl
    · split <;> simp_all

theorem skipRest_eq (frame : Frame) (frames : List Frame) (text : Text) :
    skipRest (frame :: frames) text =
      match skipSpace text with
      | [] => giveUp frame.endProblem []
      | c :: rest =>
        if c = ',' then skipItem frame frames rest
        else if c = frame.closing then skipRest frames rest
        else refuse frame.noEndProblem (c :: rest) := by
  rw [skipRest]
  split
  · rename_i he
    rw [he]
  · rename_i he
    rw [he]
    simp only [skipItem]
    split
    · split <;> simp_all
    · rfl

theorem skipItem_congr (frame : Frame) (frames : List Frame) {a b : Text}
    (h : skipSpace a = skipSpace b) : skipItem frame frames a = skipItem frame frames b := by
  cases frame with
  | list => simp only [skipItem,Frame.beforeValue,skipValue_eq,h]
  | object => simp only [skipItem,Frame.beforeValue,skipMemberKey,h]

theorem Frame.isSpace_opening (frame : Frame) : isSpace frame.opening = false := by
  cases frame <;> rfl

theorem Frame.opening_ne_closing (opened frame : Frame) : opened.opening ≠ frame.closing := by
  cases opened <;> cases frame <;> decide

theorem Frame.isSpace_closing (frame : Frame) : isSpace frame.closing = false := by
  cases frame <;> rfl

theorem Frame.closing_ne_comma (frame : Frame) : frame.closing ≠ ',' := by
  cases frame <;> decide

theorem Frame.endsValue_closing (frame : Frame) (rest : Text) :
    EndsValue (frame.closing :: rest) := by
  cases frame with
  | list => exact endsValue_cons (.inr (.inl rfl)) rest
  | object => exact endsValue_cons (.inr (.inr rfl)) rest

section

variable (frame : Frame) (frames : List Frame) {space : Text} {c : Char}

theorem skipOpened_closing (hs : IsSpace space) (rest : Text) :
    skipOpened frame frames (space ++ frame.closing :: rest) = skipRest frames rest := by
  rw [skipOpened_eq,skipSpace_append hs,skipSpace_cons frame.isSpace_closing]
  exact if_pos rfl

theorem skipOpened_item (hs : IsSpace space) (hc : isSpace c = false) (hne : c ≠ frame.closing)
    (rest : Text) :
    skipOpened frame frames (space ++ c :: rest) =
      skipItem frame frames (space ++ c :: rest) := by
  rw [skipOpened_eq,skipSpace_append hs,skipSpace_cons hc]
  exact (if_neg hne).trans (skipItem_congr frame frames (skipSpace_append hs _).symm)

theorem skipRest_closing (hs : IsSpace space) (rest : Text) :
    skipRest (frame :: frames) (space ++ frame.closing :: rest) = skipRest frames rest := by
  rw [skipRest_eq,skipSpace_append hs,skipSpace_cons frame.isSpace_closing]
  exact (if_neg frame.closing_ne_comma).trans (if_pos rfl)

theorem skipRest_comma (hs : IsSpace space) (rest : Text) :
    skipRest (frame :: frames) (space ++ ',' :: rest) = skipItem frame frames rest := by
  rw [skipRest_eq,skipSpace_append hs]
  rfl

theorem skipValue_opening (hs : IsSpace space) (rest : Text) :
    skipValue frames (space ++ frame.opening :: rest) = skipOpened frame frames rest := by
  rw [skipValue_eq,skipSpace_append hs]
  cases frame <;> rfl

theorem skipValue_scalar (hs : IsSpace space) (hc : isSpace c = false)
    (hbracket : ∀ frame : Frame, c ≠ frame.opening) {text rest : Text}
    (h : skipScalar (c :: text) = .ok rest) :
    skipValue frames (space ++ c :: text) = skipRest frames rest := by
  have hlist := hbracket .list
  have hobject := hbracket .object
  rw [skipValue_eq,skipSpace_append hs,skipSpace_cons hc]
  split
  · exact absurd (List.cons.inj ‹_›).1 hlist
  · exact absurd (List.cons.inj ‹_›).1 hobject
  · rw [h]

theorem skipItem_label {label : Text} (hl : IsLabel frame label) (rest : Text) :
    skipItem frame frames (label ++ rest) = skipValue (frame :: frames) rest := by
  cases hl with
  | list => rfl
  | @object before name gap hb hn hg =>
    have hkey : skipKey (name ++ '"' :: (gap ++ ':' :: rest)) = .ok rest := by
      rw [skipKey,hn.skipString]
      exact colon_append hg rest
    have hbefore : Frame.object.beforeValue
        (before ++ '"' :: (name ++ '"' :: (gap ++ [':'])) ++ rest) = .ok rest := by
      rw [List.append_assoc,Frame.beforeValue,skipMemberKey,skipSpace_append hb]
      rw [← hkey]
      simp only [List.cons_append,List.append_assoc,List.nil_append]
      rfl
    rw [skipItem,hbefore]

end

/-- A value starts with a character that is no space and closes no bracket. -/
theorem Derives.exists_head {text : Text} (h : Derives .value text) :
    ∃ c others, text = c :: others ∧ isSpace c = false ∧ ∀ frame : Frame, c ≠ frame.closing := by
  cases h with
  | word h =>
    simp only [List.mem_cons,List.not_mem_nil,or_false] at h
    rcases h with rfl | rfl | rfl
    all_goals exact ⟨_,_,rfl,rfl,fun frame => by cases frame <;> decide⟩
  | number h =>
    obtain ⟨c,others,he,hc,hbracket⟩ := h.exists_head
    exact ⟨c,others,he,hc,fun frame => (hbracket frame).2⟩
  | string _ => exact ⟨_,_,rfl,rfl,fun frame => by cases frame <;> decide⟩
  | empty opened _ => exact ⟨_,_,rfl,opened.isSpace_opening,opened.opening_ne_closing⟩
  | @filled opened _ _ => exact ⟨_,_,rfl,opened.isSpace_opening,opened.opening_ne_closing⟩

/-- So does a value with what stands before it between brackets, after some space. -/
theorem IsLabel.exists_head {frame : Frame} {label before value : Text} (hl : IsLabel frame label)
    (hb : IsSpace before) (hv : Derives .value value) (rest : Text) :
    ∃ space c others, label ++ (before ++ (value ++ rest)) = space ++ c :: others ∧
      IsSpace space ∧ isSpace c = false ∧ c ≠ frame.closing := by
  cases hl with
  | list =>
    obtain ⟨c,others,rfl,hc,hbracket⟩ := hv.exists_head
    exact ⟨before,c,others ++ rest,rfl,hb,hc,hbracket .list⟩
  | object hbefore _ _ =>
    exact ⟨_,'"',_,List.append_assoc _ _ _,hbefore,rfl,by decide⟩

theorem Derives.exists_first {frame : Frame} {text : Text} (h : Derives (.items frame) text) :
    ∃ space c others, text = space ++ c :: others ∧ IsSpace space ∧ isSpace c = false ∧
      c ≠ frame.closing := by
  cases h with
  | last hl hb hv _ => exact hl.exists_head hb hv _
  | next hl hb hv _ _ => exact hl.exists_head hb hv _

/-- What is skipped: a value with the space before it, and items up to the closing
bracket. -/
def IsSkipped : Nonterminal → Text → Prop
  | .value, text => ∀ frames space rest, IsSpace space → EndsValue rest →
    skipValue frames (space ++ (text ++ rest)) = skipRest frames rest
  | .items frame, text => ∀ frames rest,
    skipItem frame frames (text ++ frame.closing :: rest) = skipRest frames rest

/-- Whatever the grammar allows is skipped to its end. The induction is on how it is
derived, for all brackets that are open around it and all text behind it. -/
theorem Derives.isSkipped {nonterminal : Nonterminal} {text : Text}
    (h : Derives nonterminal text) : IsSkipped nonterminal text := by
  induction h with
  | word h =>
    intro frames space rest hs _
    simp only [List.mem_cons,List.not_mem_nil,or_false] at h
    rcases h with rfl | rfl | rfl
    all_goals
      rw [skipValue_eq,skipSpace_append hs]
      rfl
  | number h =>
    intro frames space rest hs hends
    have hskip := h.skipScalar hends
    obtain ⟨c,others,rfl,hc,hbracket⟩ := h.exists_head
    exact skipValue_scalar frames hs hc (fun frame => (hbracket frame).1) hskip
  | @string body h =>
    intro frames space rest hs _
    have hskip : skipScalar ('"' :: (body ++ ['"'] ++ rest)) = .ok rest := by
      rw [List.append_assoc]
      exact h.skipString rest
    exact skipValue_scalar frames hs rfl (fun frame => by cases frame <;> decide) hskip
  | @empty frame inner hi =>
    intro frames space rest hs _
    have hwhole : frame.opening :: (inner ++ [frame.closing]) ++ rest =
        frame.opening :: (inner ++ frame.closing :: rest) := by simp
    rw [hwhole,skipValue_opening frame frames hs,skipOpened_closing frame frames hi]
  | @filled frame text h ih =>
    intro frames space rest hs _
    have hwhole : frame.opening :: (text ++ [frame.closing]) ++ rest =
        frame.opening :: (text ++ frame.closing :: rest) := by simp
    -- Behind the opening bracket the skipper first looks for the closing one.
    obtain ⟨lead,c,others,rfl,hlead,hc,hne⟩ := h.exists_first
    have hitem := skipOpened_item frame frames hlead hc hne (others ++ frame.closing :: rest)
    rw [← List.cons_append,← List.append_assoc] at hitem
    rw [hwhole,skipValue_opening frame frames hs,hitem]
    exact ih frames rest
  | @last frame label before value after hl hb _ ha ih =>
    intro frames rest
    have hwhole : label ++ (before ++ (value ++ after)) ++ frame.closing :: rest =
        label ++ (before ++ (value ++ (after ++ frame.closing :: rest))) := by simp
    rw [hwhole,skipItem_label frame frames hl,
      ih _ before _ hb (.of_space ha (frame.endsValue_closing rest)),
      skipRest_closing frame frames ha]
  | @next frame label before value after others hl hb _ ha _ ihv iho =>
    intro frames rest
    have hwhole : label ++ (before ++ (value ++ (after ++ ',' :: others))) ++
          frame.closing :: rest =
        label ++ (before ++ (value ++ (after ++ ',' :: (others ++ frame.closing :: rest)))) := by
      simp
    rw [hwhole,skipItem_label frame frames hl,
      ihv _ before _ hb (.of_space ha (endsValue_cons (.inl rfl) _)),skipRest_comma frame frames ha]
    exact iho frames rest

theorem Derives.skip {value space : Text} (h : Derives .value value) (hs : IsSpace space)
    (hends : EndsValue rest) : skip (space ++ (value ++ rest)) = .ok rest := by
  rw [Json.skip,h.isSkipped [] space rest hs hends,skipRest]

end ShellAlias.Json
