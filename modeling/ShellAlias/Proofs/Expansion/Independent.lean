import Mathlib.Logic.Relation
import ShellAlias.Proofs.Expansion.Edit
import ShellAlias.Proofs.Expansion.Reading
import ShellAlias.Table.Basic

namespace ShellAlias

inductive Replaces (entries : List Entry) : Text → Text → Prop where
  | word (before after : Text) (entry : Entry)
      (valid : ValidAt entries (before ++ entry.key ++ after) before entry) :
      Replaces entries (before ++ entry.key ++ after) (before ++ entry.value ++ after)

section
variable {entries : List Entry}

/-- No command starts behind a key or a value, so the text that follows cannot
tell one from the other. -/
theorem Independent.startsCommand_congr (h : Independent entries) {entry : Entry}
    (hm : entry ∈ entries) (before text : Text) :
    CommandPosition.startsCommand (before ++ entry.key ++ text) =
      CommandPosition.startsCommand (before ++ entry.value ++ text) := by
  apply CommandPosition.startsCommand_append_congr
  rw [CommandPosition.startsCommand_append_word before (h.isWord entry hm) (h.nonempty entry hm),
    CommandPosition.startsCommand_append_of_visible before (h.noSeparator entry hm)
      (h.visible entry hm)]

/-- A key that ends right before a command word is not a whole word. -/
theorem Independent.gap_ne_nil (h : Independent entries) {before gap : Text} {entry : Entry}
    (hm : entry ∈ entries)
    (hs : CommandPosition.startsCommand (before ++ entry.key ++ gap) = true) : gap ≠ [] := by
  intro hempty
  subst hempty
  have hword := h.isWord entry hm
  rw [List.append_nil,
    CommandPosition.startsCommand_append_word before hword (h.nonempty entry hm)] at hs
  contradiction

/-- Replacing a command word leaves the other command words of the line, and
makes no new ones. -/
theorem Independent.validAt_replaced_iff (h : Independent entries) {before after place : Text}
    {entry other : Entry}
    (hv : ValidAt entries (before ++ entry.key ++ after) before entry) :
    ValidAt entries (before ++ entry.value ++ after) place other ↔
      (place.length < before.length ∧
        ValidAt entries (before ++ entry.key ++ after) place other) ∨
      ∃ tail, place = before ++ entry.value ++ tail ∧
        ValidAt entries (before ++ entry.key ++ after) (before ++ entry.key ++ tail) other := by
  obtain ⟨hm,_,htext,hstart,hend⟩ := h.validAt_iff.mp hv
  rw [List.append_cancel_left_eq] at htext
  subst htext
  constructor
  · intro hplace
    obtain ⟨hother,rest,hrest,hs,he⟩ := h.validAt_iff.mp hplace
    have hword := h.isWord other hother
    rw [List.append_assoc] at hrest
    rcases CommandPosition.IsWord.beside hword
      (CommandPosition.isBreak_of_startsCommand hstart _) hrest with ⟨gap,rfl,rfl⟩ | ⟨c,hc,hpc⟩
    · -- In front of the replaced word, with something in between.
      left
      have hgap := h.gap_ne_nil hother hstart
      have hpos := List.length_pos_iff.mpr (h.nonempty other hother)
      refine ⟨by simp only [List.length_append]; omega,
        h.validAt_iff.mpr ⟨hother,gap ++ (entry.key ++ after),by simp,hs,?_⟩⟩
      rw [CommandPosition.endsWord_append_congr hgap _ (entry.value ++ after)]
      exact he
    · rcases CommandPosition.IsWord.beside hword
        (CommandPosition.isBreak_of_endsWord hend _) hc with ⟨gap,hgap,_⟩ | ⟨tail,htail,rfl⟩
      · exact absurd ⟨c,gap,hgap.symm⟩ (h.noKey entry hm other hother)
      · -- Behind the replaced word, where no command starts either way.
        right
        subst hpc htail
        refine ⟨tail,by simp,h.validAt_iff.mpr ⟨hother,rest,by simp,?_,he⟩⟩
        rw [h.startsCommand_congr hm]
        simpa using hs
  · intro hplace
    rcases hplace with ⟨hlt,hplace⟩ | ⟨tail,rfl,hplace⟩
    · obtain ⟨hother,rest,hrest,hs,he⟩ := h.validAt_iff.mp hplace
      rcases h.disjoint hplace hv (by omega) with ⟨rfl,_⟩ | ⟨gap,rfl⟩
      · exact absurd hlt (Nat.lt_irrefl _)
      · have hgap := h.gap_ne_nil hother hstart
        refine h.validAt_iff.mpr ⟨hother,gap ++ (entry.value ++ after),by simp,hs,?_⟩
        have hrest : rest = gap ++ (entry.key ++ after) := by simpa using hrest.symm
        rw [CommandPosition.endsWord_append_congr hgap _ (entry.key ++ after),← hrest]
        exact he
    · obtain ⟨hother,rest,hrest,hs,he⟩ := h.validAt_iff.mp hplace
      refine h.validAt_iff.mpr ⟨hother,rest,?_,?_,he⟩
      · simpa using hrest
      · rwa [← h.startsCommand_congr hm]

/-- What a line means is left as it is when one of its words is replaced. -/
theorem Independent.reading_replaced (h : Independent entries) {text replaced : Text}
    (hreplaced : Replaces entries text replaced) {tokens : List Token}
    (hr : Reading entries [] text tokens) :
    ∃ others, Reading entries [] replaced others ∧ Token.target others = Token.target tokens := by
  obtain ⟨before,after,entry,hv⟩ := hreplaced
  obtain ⟨a,b,rfl,rfl⟩ := Token.exists_append_of_mem_words ((hr.2 before entry).mpr hv)
  have hafter : Token.source b = after := by
    have hsource := hr.1
    rw [Token.source_append,Token.source_word,← List.append_assoc] at hsource
    exact List.append_cancel_left hsource
  subst hafter
  refine ⟨a ++ (entry.value.map .char ++ b),⟨?_,?_⟩,?_⟩
  · simp only [Token.source_append,Token.source_chars,List.append_assoc]
  · intro place other
    simp only [List.nil_append,h.validAt_replaced_iff hv,Token.mem_words_around_chars,
      h.mem_words_front hr,h.mem_words_back hr]
  · simp only [Token.target_append,Token.target_chars,Token.target_word]

/-- On a line without backslashes every edit replaces a command word or nothing. -/
theorem Independent.replaces_of_edit (h : Independent entries) {escapes : Escapes}
    {text edited : Text} (he : Edit CommandPosition.shell escapes entries text edited)
    (hb : '\\' ∉ text) :
    Relation.ReflTransGen (Replaces entries) text edited ∧ '\\' ∉ edited := by
  obtain ⟨entry,before,after,hm,_⟩ := he
  cases ho : (Visit.make CommandPosition.shell entry.key before after).occurrence with
  | escaped =>
    simp only [List.mem_append,not_or] at hb
    exact absurd ho (Visit.ne_escaped hb.1.1)
  | valid =>
    rw [Visit.leaves_valid _ ho]
    have hv : ValidAt entries (before ++ entry.key ++ after) before entry := ⟨hm,after,rfl,ho⟩
    refine ⟨.single (.word before after entry hv),?_⟩
    have hvalue := h.noBackslash entry hm
    simp only [List.mem_append,not_or] at hb
    simp [Visit.make,hb,hvalue]
  | invalid =>
    rw [Visit.leaves_invalid _ ho]
    exact ⟨.refl,hb⟩

theorem Independent.replaces_of_edits (h : Independent entries) {escapes : Escapes}
    {text edited : Text}
    (he : Relation.ReflTransGen (Edit CommandPosition.shell escapes entries) text edited)
    (hb : '\\' ∉ text) :
    Relation.ReflTransGen (Replaces entries) text edited ∧ '\\' ∉ edited := by
  induction he with
  | refl => exact ⟨.refl,hb⟩
  | tail _ he ih =>
    obtain ⟨hruns,hnone⟩ := ih
    obtain ⟨hstep,hnone⟩ := h.replaces_of_edit he hnone
    exact ⟨hruns.trans hstep,hnone⟩

theorem Independent.absent_of_replaces (h : Independent entries) {text replaced : Text}
    (hr : Relation.ReflTransGen (Replaces entries) text replaced) {entry : Entry}
    (ha : ∀ place, ¬ ValidAt entries text place entry) :
    ∀ place, ¬ ValidAt entries replaced place entry := by
  induction hr with
  | refl => exact ha
  | tail _ hstep ih =>
    obtain ⟨before,after,first,hv⟩ := hstep
    intro place hplace
    rcases (h.validAt_replaced_iff hv).mp hplace with ⟨_,hplace⟩ | ⟨_,_,hplace⟩
    · exact ih _ hplace
    · exact ih _ hplace

theorem Independent.reading_replaces (h : Independent entries) {text replaced : Text}
    (hr : Relation.ReflTransGen (Replaces entries) text replaced) {tokens : List Token}
    (hreads : Reading entries [] text tokens) :
    ∃ others, Reading entries [] replaced others ∧ Token.target others = Token.target tokens := by
  induction hr with
  | refl => exact ⟨tokens,hreads,rfl⟩
  | tail _ hstep ih =>
    obtain ⟨others,hothers,htarget⟩ := ih
    obtain ⟨last,hlast,hsame⟩ := h.reading_replaced hstep hothers
    exact ⟨last,hlast,hsame.trans htarget⟩

theorem ValidAt.behind {done rest place : Text} {entry : Entry}
    (hv : ValidAt entries (done ++ rest) place entry) (hle : done.length ≤ place.length) :
    ∃ between after, place = done ++ between ∧ rest = between ++ entry.key ++ after := by
  obtain ⟨_,after,htext,_⟩ := hv
  rw [List.append_assoc] at htext
  rcases List.append_eq_append_iff.mp htext with ⟨between,rfl,hrest⟩ | ⟨gap,hdone,hrest⟩
  · exact ⟨between,after,rfl,by rw [hrest,List.append_assoc]⟩
  · have hgap : gap = [] := by
      rw [hdone,List.length_append] at hle
      exact List.eq_nil_of_length_eq_zero (by omega)
    subst hgap
    exact ⟨[],after,by simpa using hdone.symm,by simpa using hrest.symm⟩

/-- A key that is no command word overlaps none of its own command words. -/
theorem Independent.past_invalid (h : Independent entries) {entry : Entry} {before after : Text}
    (hi : (Visit.make CommandPosition.shell entry.key before after).occurrence = .invalid)
    {place : Text} (hv : ValidAt entries (before ++ entry.key ++ after) place entry)
    (hle : before.length ≤ place.length) :
    (before ++ entry.key).length ≤ place.length := by
  have hm := hv.1
  rw [List.append_assoc] at hv
  obtain ⟨between,rest,rfl,hrest⟩ := hv.behind hle
  by_contra hlt
  simp only [List.length_append] at hlt
  obtain ⟨tail,hkey⟩ : between <+: entry.key := by
    refine List.prefix_of_prefix_length_le ?_ (List.prefix_append entry.key after) (by omega)
    rw [hrest,List.append_assoc]
    exact List.prefix_append _ _
  obtain ⟨_,_,_,hstart,_⟩ := h.validAt_iff.mp hv
  have hempty : between = [] := by
    by_contra hne
    have hword := h.isWord entry hm
    rw [← hkey,CommandPosition.IsWord.append] at hword
    rw [CommandPosition.startsCommand_append_word before hword.1 hne] at hstart
    contradiction
  subst hempty
  obtain ⟨_,_,_,hc⟩ := hv
  rw [List.append_nil,← List.append_assoc] at hc
  have hi : Occurrence.classify entry.key (before ++ entry.key ++ after) (Text.size before)
    CommandPosition.shell = .invalid := hi
  rw [hi] at hc
  contradiction

/-- When an alias has made its way through a line, its key is no command word of
it any more. -/
theorem Independent.absent_resume (h : Independent entries) {entry : Entry} (hm : entry ∈ entries)
    (escapes : Escapes) {done rest : Text} (hb : '\\' ∉ done ++ rest)
    (hdone : ∀ place, ValidAt entries (done ++ rest) place entry → done.length ≤ place.length) :
    ∀ place, ¬ ValidAt entries
      (Pass.resume CommandPosition.shell escapes entry done rest).text place entry := by
  induction done, rest using Pass.resume_induction with
  | stop done rest habsent =>
    intro place hplace
    obtain ⟨between,after,_,rfl⟩ := hplace.behind (hdone place hplace)
    exact (habsent.resolve_left (h.nonempty entry hm)) ⟨between,after,rfl⟩
  | visit done between after pass hc ih =>
    have hfirst (place : Text)
        (hplace : ValidAt entries (done ++ between ++ entry.key ++ after) place entry) :
        (done ++ between).length ≤ place.length := by
      have hplace : ValidAt entries (done ++ (between ++ entry.key ++ after)) place entry := by
        simpa using hplace
      obtain ⟨front,rest,rfl,hrest⟩ := hplace.behind (hdone place hplace)
      have hle := Text.cutFirst?_leftmost hc hrest
      simp only [List.length_append]
      omega
    cases ho : (Visit.make CommandPosition.shell entry.key (done ++ between) after).occurrence with
    | escaped =>
      simp only [List.mem_append,not_or] at hb
      exact absurd ho (Visit.ne_escaped (by simp [hb]))
    | valid =>
      have hv : ValidAt entries (done ++ between ++ entry.key ++ after) (done ++ between) entry :=
        ⟨hm,after,rfl,ho⟩
      rw [Visit.leaves_valid _ ho] at ih
      have hvalue := h.noBackslash entry hm
      apply ih
      · simp only [List.mem_append,not_or] at hb
        simp [Visit.make,hb,hvalue]
      · intro place hplace
        rcases (h.validAt_replaced_iff hv).mp hplace with ⟨hlt,hplace⟩ | ⟨tail,rfl,_⟩
        · have hle := hfirst place hplace
          omega
        · simp [Visit.make]
    | invalid =>
      rw [Visit.leaves_invalid _ ho] at ih
      apply ih
      · simpa [Visit.make] using hb
      · intro place hplace
        exact h.past_invalid ho hplace (hfirst place hplace)

theorem Independent.replaces_ofEntries (h : Independent entries) {part : List Entry}
    (hs : part ⊆ entries) (escapes : Escapes) {text : Text} (hb : '\\' ∉ text) :
    Relation.ReflTransGen (Replaces entries) text
        (Pass.ofEntries CommandPosition.shell escapes part text).text ∧
      '\\' ∉ (Pass.ofEntries CommandPosition.shell escapes part text).text :=
  h.replaces_of_edits (Pass.edits_ofEntries_of_subset hs text) hb

/-- A pass leaves no command word of the aliases that it has made. -/
theorem Independent.absent_ofEntries (h : Independent entries) {part : List Entry}
    (hs : part ⊆ entries) (escapes : Escapes) {text : Text} (hb : '\\' ∉ text) :
    ∀ entry ∈ part, ∀ place, ¬ ValidAt entries
      (Pass.ofEntries CommandPosition.shell escapes part text).text place entry := by
  induction part generalizing text with
  | nil => simp
  | cons first part ih =>
    obtain ⟨hm,hothers⟩ := List.cons_subset.mp hs
    have hfirst : '\\' ∉ (Pass.ofEntry CommandPosition.shell escapes first text).text :=
      (h.replaces_of_edits (Pass.edits_resume hm [] text) hb).2
    have hgone : ∀ place, ¬ ValidAt entries
        (Pass.ofEntry CommandPosition.shell escapes first text).text place first :=
      h.absent_resume hm escapes hb (fun _ _ => Nat.zero_le _)
    obtain ⟨hlater,_⟩ := h.replaces_ofEntries hothers escapes hfirst
    intro entry hentry
    rcases List.mem_cons.mp hentry with rfl | hentry
    · exact h.absent_of_replaces hlater hgone
    · exact ih hothers hfirst entry hentry

theorem quiet_of_absent {text : Text} (hb : '\\' ∉ text) {entry : Entry} (hm : entry ∈ entries)
    (ha : ∀ place, ¬ ValidAt entries text place entry) (escapes : Escapes) :
    Quiet CommandPosition.shell escapes entry.key [] text := by
  intro before after htext
  left
  cases ho : (Visit.make CommandPosition.shell entry.key ([] ++ before) after).occurrence with
  | escaped =>
    simp only [htext,List.mem_append,not_or] at hb
    exact absurd ho (Visit.ne_escaped hb.1.1)
  | valid => exact absurd ⟨hm,after,htext,htext ▸ ho⟩ (ha before)
  | invalid => rfl

/-- A pass over a line gives what the line means, and no later pass finds
anything to do there. -/
theorem Independent.pass_settles (h : Independent entries) {text : Text} (hb : '\\' ∉ text)
    {tokens : List Token} (hr : Reading entries [] text tokens) {part : List Entry}
    (hp : part.Perm entries) (escapes : Escapes) :
    (Pass.ofEntries CommandPosition.shell escapes part text).text = Token.target tokens ∧
      ∀ entry ∈ part, ∀ later, Quiet CommandPosition.shell later entry.key []
        (Pass.ofEntries CommandPosition.shell escapes part text).text := by
  obtain ⟨hreplaces,hnone⟩ := h.replaces_ofEntries hp.subset escapes hb
  have habsent := h.absent_ofEntries hp.subset escapes hb
  obtain ⟨others,⟨hsource,hwords⟩,htarget⟩ := h.reading_replaces hreplaces hr
  have hempty : Token.words others = [] := by
    apply List.eq_nil_iff_forall_not_mem.mpr
    intro (place,entry) hm
    have hv := (hwords place entry).mp hm
    exact habsent entry (hp.mem_iff.mpr hv.1) place hv
  refine ⟨?_,fun entry hm later =>
    quiet_of_absent hnone (hp.subset hm) (habsent entry hm) later⟩
  rw [← htarget,Token.target_of_words_eq_nil hempty,hsource]

end

/-- A line has one meaning for independent aliases: all its command words, none
of which overlap, are replaced at once. The order of the definitions and the
number of passes make no difference to it. -/
theorem Table.expand_independent {entries : List Entry} (independent : Independent entries)
    {input : Text} (unescaped : '\\' ∉ input) :
    ∃ tokens : List Token, Token.source tokens = input ∧
      (∀ before entry,
        (before, entry) ∈ Token.words tokens ↔ ValidAt entries input before entry) ∧
      (∀ a first b second, ValidAt entries input a first → ValidAt entries input b second →
        (a, first) ≠ (b, second) →
          (a ++ first.key).length ≤ b.length ∨ (b ++ second.key).length ≤ a.length) ∧
      ∀ table : Table, table.entries.Perm entries →
        (table.expand CommandPosition.shell input).text = Token.target tokens := by
  obtain ⟨tokens,hr⟩ := independent.exists_reading [] input
  refine ⟨tokens,hr.1,hr.2,?_,?_⟩
  · intro a first b second ha hb hne
    rcases Nat.le_total a.length b.length with hle | hle
    · rcases independent.disjoint ha hb hle with ⟨rfl,rfl⟩ | ⟨c,rfl⟩
      · exact absurd rfl hne
      · left
        simp
    · rcases independent.disjoint hb ha hle with ⟨rfl,rfl⟩ | ⟨c,rfl⟩
      · exact absurd rfl hne
      · right
        simp
  · intro table hp
    cases hmode : table.settings.expansion with
    | singlePass =>
      simp only [Table.expand,Expansion.expand,hmode]
      exact (independent.pass_settles unescaped hr hp .drop).1
    | fixedPoint maxPasses =>
      obtain ⟨htext,hquiet⟩ := independent.pass_settles unescaped hr hp .keep
      have hpasses : 0 < (ExpansionMode.fixedPoint maxPasses).passes := by
        simp only [ExpansionMode.passes]
        omega
      simp only [Table.expand,Expansion.expand,hmode]
      rw [Expansion.repeatPass_of_pass_quiet hpasses (fun entry hm _ => hquiet entry hm .keep),
        Pass.unescapeAll_eq_ofEntries CommandPosition.shell]
      refine (Pass.ofEntries_of_quiet ?_).1.trans htext
      intro entry hm _
      obtain ⟨key,hkey,rfl⟩ := List.mem_map.mp hm
      obtain ⟨stored,hstored,rfl⟩ := List.mem_map.mp hkey
      exact hquiet stored hstored .drop

theorem Table.expand_independent_pipe :
    let entries : List Entry :=
      [⟨['l'],['d','i','r',' ','-','a']⟩,⟨['g'],['v','c','s']⟩]
    let input : Text := ['l',' ','|',' ','g',' ','l']
    Independent entries ∧ '\\' ∉ input ∧ ∀ table : Table, table.entries.Perm entries →
      (table.expand CommandPosition.shell input).text =
        ['d','i','r',' ','-','a',' ','|',' ','v','c','s',' ','l'] := by
  intro entries input
  have independent : Independent entries := by
    refine ⟨by decide,by decide,by decide,by decide,?_,by decide,?_,by decide⟩
    · simp [entries,CommandPosition.isSeparator]
    · simp [entries]
  have unescaped : '\\' ∉ input := by decide
  obtain ⟨tokens,_,_,_,hexpand⟩ := Table.expand_independent independent unescaped
  have htarget : (({ settings := {}, entries } : Table).expand CommandPosition.shell input).text =
      ['d','i','r',' ','-','a',' ','|',' ','v','c','s',' ','l'] := by decide +kernel
  refine ⟨independent,unescaped,?_⟩
  intro table hp
  rw [hexpand table hp]
  exact (hexpand { settings := {}, entries } (List.Perm.refl _)).symm.trans htarget

end ShellAlias
