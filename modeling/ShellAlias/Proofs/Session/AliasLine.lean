import ShellAlias.Proofs.CommandPosition
import ShellAlias.Proofs.Session.Operations
import ShellAlias.Proofs.Words

namespace ShellAlias

/-- Nothing is trimmed from a text that starts and ends in characters that are seen. -/
theorem Text.trim_of_visible {first last : Char} (hfirst : isBlank first = false)
    (hlast : isBlank last = false) (middle : Text) :
    trim (first :: middle ++ [last]) = first :: middle ++ [last] := by
  have hfront : (first :: middle ++ [last]).dropWhile isBlank = first :: middle ++ [last] := by
    rw [List.cons_append,List.dropWhile_cons_of_neg (by simp [hfirst])]
  rw [trim,hfront,trimEnd_concat,hlast]
  rfl

namespace AliasRequest

/-- The three ways to write a definition ask for the same. -/
theorem ofArguments_define {key value : Text} (hkey : '=' ∉ key) (hvalue : value ≠ ['=']) :
    ofArguments [key ++ '=' :: value] = .define key value ∧
      ofArguments [key,value] = .define key value ∧
      ofArguments [key,['='],value] = .define key value := by
  have hcut := Text.cutFirst?_of_not_mem hkey value
  have hwhole : Text.cutFirst? ['='] key = none :=
    Text.cutFirst?_eq_none_iff.mpr (Or.inr fun hs => hkey (hs.mem List.mem_cons_self))
  refine ⟨?_,?_,?_⟩
  · simp [ofArguments,hcut,spaced]
  · simp [ofArguments,hwhole,spaced,hvalue]
  · simp [ofArguments,hwhole,spaced]

end AliasRequest

/-- The turn leaves the session that defining an alias leaves, prints nothing, and
reports no more than why the definition is refused. -/
structure Turn.Defines (turn : Turn) (session : Session) (key value : Text) : Prop where
  session_eq : turn.session = (session.define key value).state
  log_eq : turn.log = (session.define key value).log
  out_eq : turn.reply.out = []
  accepted : (session.define key value).result = .ok () →
    turn.reply.ok = true ∧ turn.reply.err = []
  refused : ∀ error, (session.define key value).result = .error error →
    turn.reply.ok = false ∧
      turn.reply.err = "alias: ".toList ++ error.message ++ "\n".toList

namespace Session

theorem runAlias_defines (session : Session) {args : List Text} {key value : Text}
    (h : AliasRequest.ofArguments args = .define key value) :
    (session.runAlias args).Defines session key value := by
  rw [runAlias,h]
  refine ⟨rfl,rfl,?_,?_,?_⟩
  · dsimp only
    split <;> rfl
  · intro hok
    simp only [hok,and_self]
  · intro error herror
    simp only [herror,true_and]
    rfl

variable {split : Text → Option (List Text)}

/-- An `alias` line of plain words, of which the last is in quotes, is run with these
words as its arguments. -/
theorem runLineWith_alias (finds : Words.FindsPlain split) (session : Session)
    {typed : List Words.Typed} (plain : ∀ one ∈ typed, one.IsPlain) {body : Text}
    (htyped : List.intercalate [' '] (typed.map Words.Typed.text) = body ++ ['\'']) :
    session.runLineWith split ("alias ".toList ++ body ++ ['\'']) =
      session.runAlias (typed.map Words.Typed.word) := by
  let name : Words.Typed := .bare "alias".toList
  have hline : "alias ".toList ++ body ++ ['\''] =
      List.intercalate [' '] ((name :: typed).map Words.Typed.text) := by
    cases typed with
    | nil => simp at htyped
    | cons one typed =>
      rw [List.append_assoc,← htyped,List.map_cons,List.map_cons,List.map_cons,
        List.intercalate_cons_cons]
      rfl
  have hname : name.IsPlain := by
    refine ⟨by decide,?_⟩
    simp
  have hwords := finds (name :: typed) (List.forall_mem_cons.mpr ⟨hname,plain⟩)
  rw [← hline] at hwords
  have htrim : Text.trim ("alias ".toList ++ body ++ ['\'']) = "alias ".toList ++ body ++ ['\''] :=
    Text.trim_of_visible (by decide : isBlank 'a' = false) (by decide : isBlank '\'' = false)
      ("lias ".toList ++ body)
  have hne : "alias ".toList ++ body ++ ['\''] ≠ [] := List.cons_ne_nil _ _
  have hbuiltin : Builtin.ofName? (Text.firstWord ("alias ".toList ++ body ++ ['\''])) =
      some .alias := rfl
  simp only [runLineWith,htrim,hne,↓reduceIte,hbuiltin,hwords]
  rfl

/-- Each of the three ways to type a definition does what defining the alias does. Key
and value are taken as they are, with blanks, backslashes, double quotes and line feeds,
and with equals signs in the value. -/
theorem alias_line_defines (finds : Words.FindsPlain split) (session : Session)
    {key value : Text} (keyUnquoted : '\'' ∉ key) (keySign : '=' ∉ key)
    (valueUnquoted : '\'' ∉ value) (notSign : value ≠ ['=']) :
    ∀ line ∈ [
        "alias '".toList ++ key ++ "=".toList ++ value ++ "'".toList,
        "alias '".toList ++ key ++ "' '".toList ++ value ++ "'".toList,
        "alias '".toList ++ key ++ "' = '".toList ++ value ++ "'".toList],
      (session.runLineWith split line).Defines session key value := by
  have hrun (typed : List Words.Typed) (plain : ∀ one ∈ typed, one.IsPlain) (body : Text)
      (htyped : List.intercalate [' '] (typed.map Words.Typed.text) = body ++ ['\''])
      (hargs : AliasRequest.ofArguments (typed.map Words.Typed.word) = .define key value) :
      (session.runLineWith split ("alias ".toList ++ body ++ ['\''])).Defines
        session key value := by
    rw [runLineWith_alias finds session plain htyped]
    exact session.runAlias_defines hargs
  obtain ⟨hjoined,hpair,hspaced⟩ := AliasRequest.ofArguments_define keySign notSign
  have hword : '\'' ∉ key ++ '=' :: value := by simp [keyUnquoted,valueUnquoted]
  have hsign : (Words.Typed.bare ['=']).IsPlain :=
    ⟨List.cons_ne_nil _ _,List.forall_mem_singleton.mpr (Or.inr rfl)⟩
  have hplain {word : Text} (h : '\'' ∉ word) : (Words.Typed.quoted word).IsPlain := h
  refine List.forall_mem_cons.mpr
    ⟨?_,List.forall_mem_cons.mpr ⟨?_,List.forall_mem_singleton.mpr ?_⟩⟩
  · have h := hrun [.quoted (key ++ '=' :: value)] (by simpa using hplain hword)
      ("'".toList ++ key ++ "=".toList ++ value) (by simp [Words.Typed.text]) hjoined
    simpa using h
  · have h := hrun [.quoted key,.quoted value]
      (by simpa using ⟨hplain keyUnquoted,hplain valueUnquoted⟩)
      ("'".toList ++ key ++ "' '".toList ++ value)
      (by simp [Words.Typed.text,List.intercalate]) hpair
    simpa using h
  · have h := hrun [.quoted key,.bare ['='],.quoted value]
      (by simpa using ⟨hplain keyUnquoted,hsign,hplain valueUnquoted⟩)
      ("'".toList ++ key ++ "' = '".toList ++ value)
      (by simp [Words.Typed.text,List.intercalate]) hspaced
    simpa using h

/-- The rules of shell words meet the condition. A value full of characters that mean
something elsewhere is stored as it is, and a definition without a key is refused. -/
theorem alias_line_defines_verbatim :
    let session := (start {} CommandPosition.shell (some "/h".toList)).1
    let key := "a #".toList
    let value := " x=\"$y\\\n".toList
    let turn := session.runLine "alias 'a #' = ' x=\"$y\\\n'".toList
    let refused := session.runLine "alias '=v'".toList
    ('\'' ∉ key ∧ '=' ∉ key ∧ '\'' ∉ value ∧ value ≠ ['=']) ∧ turn.Defines session key value ∧
      turn.session.table.entries = [⟨['~'],"/h".toList⟩,⟨key,value⟩] ∧
      turn.reply = { ok := true, out := [], err := [] } ∧
      refused.Defines session [] ['v'] ∧ refused.reply.ok = false ∧
      refused.reply.err = "alias: invalid alias key: key must not be empty\n".toList := by
  intro session key value turn refused
  have hkey : '\'' ∉ key := by decide
  have hsign : '=' ∉ key := by decide
  have hvalue : '\'' ∉ value := by decide
  have hne : value ≠ ['='] := by decide
  have hturn : turn.Defines session key value :=
    alias_line_defines Words.split_findsPlain session hkey hsign hvalue hne _ (by decide)
  have hblank : '\'' ∉ ([] : Text) ∧ '=' ∉ ([] : Text) := by decide
  have hrefused : refused.Defines session [] ['v'] :=
    alias_line_defines Words.split_findsPlain session hblank.1 hblank.2 (by decide) (by decide) _
      (by decide)
  have hmeaning : (session.expand value).text = value := by decide +kernel
  have hok : (session.define key value).result = .ok () := by
    change (session.table.restore key (session.expand value).text).result = .ok ()
    rw [hmeaning]
    rfl
  have herror : (session.define [] ['v']).result = .error .emptyKey := rfl
  have hentries : (session.define key value).state.table.entries =
      [⟨['~'],"/h".toList⟩,⟨key,value⟩] := by decide +kernel
  obtain ⟨hreplyOk,hreplyErr⟩ := hturn.accepted hok
  obtain ⟨hfailed,hmessage⟩ := hrefused.refused _ herror
  have hreply : turn.reply = ⟨turn.reply.ok,turn.reply.out,turn.reply.err⟩ := rfl
  rw [hreplyOk,hturn.out_eq,hreplyErr] at hreply
  refine ⟨⟨hkey,hsign,hvalue,hne⟩,hturn,?_,hreply,hrefused,hfailed,hmessage⟩
  rw [hturn.session_eq]
  exact hentries

end Session
end ShellAlias
