import IniScan.Proofs.Cursor.Literal
import IniScan.Proofs.Header.Recognised
import IniScan.Proofs.Header.RegexLanguage
import IniScan.Proofs.Header.SubjectText
import IniScan.Proofs.Host.Calls
import IniScan.Proofs.Line.Shape

/-!
# Reading a whole header

Where a scanner in exact mode finds the start of a header, a host reads the bracket, the blanks behind it and a section
name, and then calls for the kinds that belong to the name. What scanner, host and vocabulary say about the name is
the same: exactly one name can be read there.

* `exists_name`: the bracket and the name.
* `answers_name`: the call behind the name, for every name.
-/
namespace IniScan.Document

open Text Header
open Header.RegexName (nameOf)

/-! ## The call behind the name -/

/-- What a host that stands behind the name `k` is answered when it calls for kinds of the rest of the header. The
rest is `nameOf` what is unread, all up to a bracket or a line end. -/
structure Answers (g : Host) (k : Section) (offered : KindSet) : Prop where
  /-- A subject is found without the blanks around it. -/
  subject : ∀ j ∈ Kind.suffixed, offered = {j} → trim (nameOf g.cursor.unread) ≠ [] →
    g.Finds offered j ((nameOf g.cursor.unread).takeWhile isBlank) (trim (nameOf g.cursor.unread))
  /-- No subject is needed behind an include: the token stands at the end of the blanks. -/
  empty : offered = {Kind.includeSuffix} → trim (nameOf g.cursor.unread) = [] →
    g.Finds offered .includeSuffix (nameOf g.cursor.unread) []
  /-- The other subjects must not be empty. -/
  missing : ∀ j ∈ Kind.suffixed, j ≠ .includeSuffix → offered = {j} → trim (nameOf g.cursor.unread) = [] →
    g.Rejects offered
  /-- A regex header's name is found with its blanks. -/
  regex : k = .shaderRegex → ∃ j ∈ KindSet.regex, g.Finds offered j [] (nameOf g.cursor.unread)
  bare : offered = ∅ → g.Rejects offered
  /-- There are no other names. -/
  all : (∃ j ∈ Kind.suffixed, offered = {j}) ∨ k = .shaderRegex ∨ offered = ∅

theorem suffixed_alone {j : Kind} (hj : j ∈ Kind.suffixed) : Kind.errorSentinel ∉ ({j} : KindSet) ∧
    Family.of? {j} = some .subject ∧ Subject.kind? {j} true = some j ∧ (Kind.includeSuffix ∈ ({j} : KindSet) → j = .includeSuffix) := by
  revert j
  decide

theorem answers_name {g : Host} (hsize : byteSize g.cursor.source < 2 ^ 32) (k : Section) : Answers g k k.suffixKinds := by
  have hu := RegexName.eq_nameOf_append g.cursor.unread
  have hclosed := stops_dropWhile (fun c => !Subject.isClosing c) g.cursor.unread
  refine ⟨?_, ?_, ?_, ?_, ?_, ?_⟩
  · intro j hj he ht
    obtain ⟨hs, hf, hk, -⟩ := suffixed_alone hj
    rw [he]
    exact Subject.finds_subject hsize hs hf hu RegexName.not_isClosing_of_mem_nameOf hclosed ht hk
  · intro he ht
    rw [he]
    exact Subject.finds_empty hsize (by decide) (by decide) hu hclosed ht (by decide)
  · intro j hj hne he ht
    obtain ⟨hs, hf, -, honly⟩ := suffixed_alone hj
    rw [he]
    exact Subject.rejects_empty hs hf hu hclosed ht fun hm => hne (honly hm)
  · intro hk
    subst hk
    exact ⟨_, RegexName.kindOf_mem_regex _,
      RegexName.finds_name hsize (by decide) (by decide) (RegexName.kindOf_mem_regex _)⟩
  · intro he
    rw [he]
    apply Host.rejects_of_read
    rw [g.scanner.read_of_no_family (by decide)]
  · cases k <;> decide

/-! ## The name -/

theorem exists_name {c : Cursor} {s rest : List Char} (hu : c.unread = '[' :: s ++ rest)
    (hs : isHeader .exact s = true) : ∃ inner, c.bump? ['['] = some inner ∧
      ∃ k : Section, k.letters <+: lower (inner.eatWhile isBlank).unread := by
  have hbracket : c.unread = ['['] ++ (s ++ rest) := hu
  have hbump : c.bump? ['['] = some (c.pass 1) := Cursor.bump?_of_append hbracket
  obtain ⟨k, hk⟩ := Probe.exists_name_of_isHeader hs
  refine ⟨_, hbump, k, ?_⟩
  have hunread : (c.pass 1).unread = s ++ rest := by rw [Cursor.unread_pass, hu]; rfl
  have hne : s.dropWhile isBlank ≠ [] := fun hnil => by
    rw [hnil] at hk
    exact k.letters_ne_nil (List.prefix_nil.1 hk)
  rw [Cursor.unread_eatWhile, hunread, List.dropWhile_append, if_neg (by simpa using hne), lower_append]
  exact hk.trans (List.prefix_append _ _)

/-- **Headers.** Wherever and whatever a scanner in exact mode is asked, when it finds the start of a header, that start is
where the cursor then stands. A bracket can be read there, and behind it and the blanks exactly one section name in any
case. The call for the kinds that belong to the name is answered as the name wants it. -/
theorem header_start {h g : Host} {offered : KindSet} {tok : Token} (hsize : byteSize h.cursor.source < 2 ^ 32)
    (hmode : h.scanner.config.mode = .exact) (hcall : h.nextToken offered = (some tok, g))
    (hkind : tok.kind = .headerStart) :
    (tok.start.toNat = g.cursor.pos ∧ tok.stop.toNat = g.cursor.pos) ∧
    ∃ inner, g.cursor.bump? ['['] = some inner ∧
    ∃ k named, (inner.eatWhile isBlank).bumpIgnoreCase? (Section.letters k) = some named ∧
      (∀ j : Section, ((inner.eatWhile isBlank).bumpIgnoreCase? j.letters).isSome = true → j = k) ∧
      Answers { g with cursor := named } k (Section.headerSuffixKinds k.letters) := by
  have htok : (h.nextToken offered).1 = some tok := by rw [hcall]
  have hg : (h.nextToken offered).2 = g := by rw [hcall]
  obtain ⟨b, s, rest, hu, hheader, hfind⟩ := Line.exists_header hsize htok hkind
  have hunread := hfind.unread
  have hpos := hfind.pos
  have hsource := h.source_nextToken offered
  obtain ⟨tok', htok', -, hstart, hstop⟩ := hfind.exists_token
  rw [htok, Option.some.injEq] at htok'
  subst htok'
  rw [hg] at hunread hpos hsource
  rw [hmode] at hheader
  rw [hu, List.append_cancel_left_eq, List.nil_append] at hunread
  obtain ⟨inner, hinner, k, hk⟩ := exists_name hunread.symm hheader
  have hsome : ((inner.eatWhile isBlank).bumpIgnoreCase? k.letters).isSome = true := by
    rw [Cursor.isSome_bumpIgnoreCase?_iff, k.lower_letters]
    exact hk
  obtain ⟨named, hnamed⟩ := Option.isSome_iff_exists.1 hsome
  refine ⟨⟨by rw [hstart, hpos]; rfl, by rw [hstop, hpos]⟩, inner, hinner, k, named, hnamed, ?_, ?_⟩
  · intro j hj
    rw [Cursor.isSome_bumpIgnoreCase?_iff, j.lower_letters] at hj
    exact Section.eq_of_prefixes hj hk
  · rw [Section.headerSuffixKinds_letters]
    apply answers_name
    have hsame : named.source = g.cursor.source := by
      rw [Cursor.source_bumpIgnoreCase? hnamed, Cursor.source_eatWhile, Cursor.source_bump? hinner]
    rw [hsame, hsource]
    exact hsize

/-- A key header with blanks around its name and its subject. -/
theorem header_start_key : ∃ g named, (Host.ofText default "[ KEY  hud ]".toList).nextToken KindSet.line =
      (some ⟨.headerStart, 0, 0⟩, g) ∧
    (g.cursor.bump? ['[']).bind (fun c => (c.eatWhile isBlank).bumpIgnoreCase? Section.key.letters) = some named ∧
    Host.Finds { g with cursor := named } {Kind.keySuffix} .keySuffix "  ".toList "hud".toList := by
  have hcall : (Host.ofText default "[ KEY  hud ]".toList).nextToken KindSet.line = (some ⟨.headerStart, 0, 0⟩,
    ((Host.ofText default "[ KEY  hud ]".toList).nextToken KindSet.line).2) := by rfl
  obtain ⟨-, inner, hinner, k, named, hnamed, honly, hanswers⟩ := header_start (by decide) rfl hcall rfl
  refine ⟨_, named, hcall, ?_⟩
  generalize hg : ((Host.ofText default "[ KEY  hud ]".toList).nextToken KindSet.line).2 = g at hinner hanswers ⊢
  have hbump : g.cursor.bump? ['['] = some (g.cursor.pass 1) := by rw [← hg]; rfl
  rw [hbump, Option.some.injEq] at hinner
  subst hinner
  have hkey : Section.key = k := honly .key (by rw [← hg]; decide)
  subst hkey
  have hname : nameOf named.unread = "  hud ".toList := by
    have hunread : (((g.cursor.pass 1).eatWhile isBlank).bumpIgnoreCase? Section.key.letters).map
        (fun c => nameOf c.unread) = some "  hud ".toList := by rw [← hg]; decide
    rw [hnamed] at hunread
    exact Option.some.inj hunread
  have hfind := hanswers.subject .keySuffix (by decide) (by decide)
  rw [hname] at hfind
  exact ⟨by rw [hbump]; exact hnamed, hfind (by decide)⟩

end IniScan.Document
