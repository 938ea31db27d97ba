import ShellAlias.Proofs.Text.Search
import ShellAlias.Table.Listing

namespace ShellAlias

namespace Listing

/-- The separator does not overlap itself, so one that starts in the key ends
there. -/
theorem separator_infix_of_append {key quoted a b : Text} (hlength : a.length < key.length)
    (h : key ++ separator ++ quoted = a ++ separator ++ b) : separator <:+: key := by
  rw [List.append_assoc,List.append_assoc] at h
  rcases List.append_eq_append_iff.mp h with ⟨c,rfl,_⟩ | ⟨c,rfl,hc⟩
  · rw [List.length_append] at hlength
    omega
  · have hstart : separator <+: c := by
      match c with
      | [] => simp at hlength
      | [_] | [_,_] | [_,_,_] => simp [separator] at hc
      | c₁ :: c₂ :: c₃ :: c₄ :: c =>
        simp only [separator,String.reduceToList,List.cons_append,List.nil_append,
          List.cons.injEq] at hc
        obtain ⟨rfl,rfl,rfl,rfl,_⟩ := hc
        exact List.prefix_append _ c
    exact hstart.isInfix.trans (List.suffix_append a c).isInfix

theorem cutFirst?_separator_iff {text key quoted : Text} :
    Text.cutFirst? separator text = some (key, quoted) ↔
      text = key ++ separator ++ quoted ∧ ¬ separator <:+: key := by
  have hne : separator ≠ [] := by decide
  rw [Text.cutFirst?_eq_some_iff]
  constructor
  · intro h
    obtain ⟨_,rfl,hfirst⟩ := h
    refine ⟨rfl,fun hinside => ?_⟩
    obtain ⟨a,b,rfl⟩ := hinside
    have hle := hfirst a (b ++ separator ++ quoted) (by simp only [List.append_assoc])
    have hpositive := List.length_pos_iff.mpr hne
    simp only [List.length_append] at hle
    omega
  · intro h
    obtain ⟨rfl,hinside⟩ := h
    refine ⟨hne,rfl,fun a b he => ?_⟩
    apply Nat.le_of_not_lt
    intro hlt
    exact hinside (separator_infix_of_append hlt he)

/-- A line is read just if it shows an entry, and the entry is the one it shows. -/
theorem entryOfLine?_eq_some_iff {text : Text} {entry : Entry} :
    entryOfLine? text = some entry ↔
      text = line entry ∧ entry.key ≠ [] ∧ ¬ separator <:+: entry.key := by
  simp only [entryOfLine?,Option.bind_eq_bind,Option.bind_eq_some_iff,
    Text.stripStart?_eq_some_iff,Prod.exists,cutFirst?_separator_iff,Text.stripEnd?_eq_some_iff]
  constructor
  · intro h
    obtain ⟨_,rfl,key,_,⟨rfl,hinside⟩,value,rfl,he⟩ := h
    split at he
    · contradiction
    · rename_i hne
      obtain rfl := Option.some.inj he
      exact ⟨by simp only [line,List.append_assoc],hne,hinside⟩
  · intro h
    obtain ⟨rfl,hne,hinside⟩ := h
    refine ⟨entry.key ++ separator ++ (entry.value ++ ['\'']),?_,entry.key,
      entry.value ++ ['\''],⟨rfl,hinside⟩,entry.value,rfl,if_neg hne⟩
    simp only [line,List.append_assoc]

theorem entryOfLine?_of_empty_key {entry : Entry} (hempty : entry.key = []) :
    entryOfLine? (line entry) = none := by
  rw [Option.eq_none_iff_forall_ne_some]
  intro other ho
  obtain ⟨he,hne,hinside⟩ := entryOfLine?_eq_some_iff.mp ho
  simp only [line,hempty,List.append_nil,List.append_assoc,List.append_cancel_left_eq] at he
  apply hinside
  apply separator_infix_of_append (a := []) (List.length_pos_iff.mpr hne)
  rw [List.append_assoc,List.nil_append]
  exact he.symm

theorem parse_line {entry : Entry} (hne : entry.key ≠ []) (hs : ¬ separator <:+: entry.key) :
    parse (line entry) = .ok entry := by
  rw [parse,entryOfLine?_eq_some_iff.mpr ⟨rfl,hne,hs⟩]

theorem parse_eq_ok_iff {text : Text} {entry : Entry} :
    parse text = .ok entry ↔ text = line entry ∧ entry.key ≠ [] ∧ ¬ separator <:+: entry.key := by
  rw [← entryOfLine?_eq_some_iff,parse]
  cases entryOfLine? text <;> simp

theorem parse_eq_error_iff {text : Text} {error : AliasError} :
    parse text = .error error ↔ error = .malformedListing text ∧
      ∀ entry : Entry, entry.key ≠ [] → ¬ separator <:+: entry.key → text ≠ line entry := by
  have hnone : entryOfLine? text = none ↔
      ∀ entry : Entry, entry.key ≠ [] → ¬ separator <:+: entry.key → text ≠ line entry := by
    rw [Option.eq_none_iff_forall_ne_some]
    constructor
    · intro h entry hne hs htext
      exact h entry (entryOfLine?_eq_some_iff.mpr ⟨htext,hne,hs⟩)
    · intro h entry he
      obtain ⟨htext,hne,hs⟩ := entryOfLine?_eq_some_iff.mp he
      exact h entry hne hs htext
  rw [← hnone,parse]
  cases entryOfLine? text <;> simp [eq_comm]

theorem feed_mem_line_iff {entry : Entry} :
    '\n' ∈ line entry ↔ '\n' ∈ entry.key ∨ '\n' ∈ entry.value := by
  simp [line,opening,separator]

theorem getLast?_line (entry : Entry) : (line entry).getLast? = some '\'' := by
  simp [line]

theorem isBlankText_line (entry : Entry) : Text.isBlankText (line entry) = false := by
  have hletter : isBlank 'a' = false := by decide
  simp [Text.isBlankText,line,opening,hletter]

/-- A line is read just if it is what is printed for the entry that is read, with a key
that is not empty and lacks the separator. Any other line is refused and named. No two
entries of the kind are printed alike, however their keys and values end. -/
theorem parse_accepts_printed (text : Text) :
    (∀ key value, parse text = .ok ⟨key,value⟩ ↔
      key ≠ [] ∧ ¬ " = '".toList <:+: key ∧
        text = "alias ".toList ++ key ++ " = '".toList ++ value ++ "'".toList) ∧
    (∀ error, parse text = .error error ↔ error = .malformedListing text ∧
      ∀ key value, key ≠ [] → ¬ " = '".toList <:+: key → text ≠ line ⟨key,value⟩) ∧
    (∀ entry, parse text = .ok entry → line entry = text) ∧
    ∀ first second : Entry, first.key ≠ [] → ¬ " = '".toList <:+: first.key →
      second.key ≠ [] → ¬ " = '".toList <:+: second.key →
      text = line first → text = line second → first = second := by
  refine ⟨fun key value => ?_,fun error => ?_,fun entry h => ?_,?_⟩
  · rw [parse_eq_ok_iff]
    exact ⟨fun ⟨htext,hne,hs⟩ => ⟨hne,hs,htext⟩,fun ⟨hne,hs,htext⟩ => ⟨htext,hne,hs⟩⟩
  · rw [parse_eq_error_iff]
    exact and_congr_right fun _ => ⟨fun h key value => h ⟨key,value⟩,fun h entry => h _ _⟩
  · exact (parse_eq_ok_iff.mp h).1.symm
  · intro first second hfirst hfirstKey hsecond hsecondKey ht htext
    have hone := parse_eq_ok_iff.mpr ⟨ht,hfirst,hfirstKey⟩
    rw [parse_eq_ok_iff.mpr ⟨htext,hsecond,hsecondKey⟩] at hone
    exact (Except.ok.inj hone).symm

/-- A key that ends like the separator's start is read up to its end, a value full of
quotes up to the last, and a line without a key is refused. -/
theorem parse_accepts_printed_straddling :
    let text := "alias a = = ''' = ''".toList
    let keyless := "alias  = 'x'".toList
    parse text = .ok ⟨"a =".toList,"'' = '".toList⟩ ∧
      line ⟨"a =".toList,"'' = '".toList⟩ = text ∧
      (∀ entry : Entry, entry.key ≠ [] → ¬ " = '".toList <:+: entry.key → text = line entry →
        entry = ⟨"a =".toList,"'' = '".toList⟩) ∧
      parse keyless = .error (.malformedListing keyless) ∧
      ∀ key value, key ≠ [] → ¬ " = '".toList <:+: key → keyless ≠ line ⟨key,value⟩ := by
  intro text keyless
  have hkey : ¬ " = '".toList <:+: "a =".toList := by decide
  obtain ⟨hread,_,hback,hsame⟩ := parse_accepts_printed text
  obtain ⟨_,hrefused,_⟩ := parse_accepts_printed keyless
  have hparse := (hread "a =".toList "'' = '".toList).mpr ⟨by decide,hkey,by decide⟩
  have herror : parse keyless = .error (.malformedListing keyless) := rfl
  exact ⟨hparse,hback _ hparse,fun entry hne hs htext => hsame entry _ hne hs (by decide) hkey
    htext (by decide),herror,((hrefused _).mp herror).2⟩

end Listing

end ShellAlias
