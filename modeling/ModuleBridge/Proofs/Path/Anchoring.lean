import ModuleBridge.Proofs.Path.Relative

/-!
# Absolute specifiers without an anchor

An absolute specifier stays as it is when nothing can be made of it, and a note is due when the
module's path is no URL. Two URLs leave it so without a note: one with an opaque path, to which
nothing can be joined, and any other when the specifier names a host that cannot be read. Main
statement: `resolve_unanchored_iff`.
-/

namespace ModuleBridge

open List Option Reference

variable {u : Url} {base : Option Url} {scheme : String}

/-! ## Schemes -/

/-- Whatever is read has the scheme `scheme`. -/
def GivesScheme (scheme : String) (reading : Option Url) : Prop :=
  ∀ u, reading = some u → u.scheme = scheme

namespace GivesScheme

variable {scheme : String} {α : Type}

theorem none : GivesScheme scheme none := by
  intro u h
  cases h

theorem some (h : u.scheme = scheme) : GivesScheme scheme (some u) := by
  intro u' hsome
  rwa [← Option.some.inj hsome]

theorem bind {reading : Option α} {next : α → Option Url} (h : ∀ a, GivesScheme scheme (next a)) :
    GivesScheme scheme (reading >>= next) := by
  intro u hbind
  obtain ⟨a, _, hnext⟩ := bind_eq_some_iff.mp hbind
  exact h a u hnext

theorem ite {p : Prop} [Decidable p] {reading other : Option Url} (h : GivesScheme scheme reading)
    (hother : GivesScheme scheme other) : GivesScheme scheme (if p then reading else other) := by
  split
  · exact h
  · exact hother

end GivesScheme

theorem Url.scheme_withPath (u : Url) (reading : PathReading) :
    (u.withPath reading).scheme = u.scheme := rfl

theorem readAuthority?_scheme (scheme : String) (input : List Char) :
    GivesScheme scheme (readAuthority? scheme input) := by
  refine .bind fun userinfo => .ite (.bind fun host => ?_) (.bind fun host => ?_)
  all_goals exact .ite (.bind fun _ => .bind fun _ => .some rfl) (.bind fun _ => .some rfl)

theorem readFilePath_scheme (hbase : ∀ b ∈ base, b.scheme = "file") (breaks : List Nat)
    (input : List Char) : (readFilePath base breaks input).scheme = "file" := by
  unfold readFilePath
  extract_lets empty read
  split
  · rfl
  · rfl
  · split
    · extract_lets first
      split
      · rfl
      · split <;> rfl
    · split
      · rfl
      · rw [Url.scheme_withPath]
        exact hbase _ rfl
  · exact hbase _ rfl

theorem readFile?_scheme (hbase : ∀ b ∈ base, b.scheme = "file") (breaks : List Nat)
    (input : List Char) : GivesScheme "file" (readFile? base breaks input) := by
  unfold readFile?
  split
  · refine .ite (.ite (.some rfl) (.bind fun host => .ite (.some rfl) (.some ?_)))
      (.some (readFilePath_scheme hbase breaks _))
    exact (apply_ite Url.scheme _ _ _).trans (ite_self _)
  · exact .some (readFilePath_scheme hbase breaks _)

theorem SchemeKind.of_eq_file (h : SchemeKind.of scheme = .file) : scheme = "file" := by
  unfold SchemeKind.of at h
  split at h
  · assumption
  · split at h <;> cases h

theorem Url.parse?_scheme {text : String} (h : Url.parse? text = some u) :
    ∃ rest, readScheme? (ofText text).text = some (u.scheme, rest) := by
  obtain ⟨⟨scheme, rest⟩, hscheme, hread⟩ := bind_eq_some_iff.mp h
  refine ⟨rest, ?_⟩
  rw [hscheme]
  have hgives :
      GivesScheme scheme (readAfterScheme? scheme (ofText text).breaks rest) := by
    unfold readAfterScheme?
    split
    · rename_i hfile
      rw [SchemeKind.of_eq_file hfile]
      exact readFile?_scheme (by simp) _ _
    · exact readAuthority?_scheme _ _
    · split
      · exact readAuthority?_scheme _ _
      · exact .some rfl
      · exact .some rfl
  rw [hgives u hread]

theorem Char.eq_slash_of_toLower {c : Char} (h : c.toLower = '/') : c = '/' := by
  unfold Char.toLower at h
  split at h
  · rename_i hupper
    have hval := congrArg Char.toNat h
    have hlow : 65 ≤ c.toNat := hupper.1
    have hhigh : c.toNat ≤ 90 := hupper.2
    have hsum : (c.toNat + 32) % 4294967296 = 47 := by simpa using hval
    omega
  · exact h

theorem readScheme?_head {input rest : List Char} (h : readScheme? input = some (scheme, rest)) :
    scheme.toList.head? ≠ some '/' := by
  unfold readScheme? at h
  extract_lets isSchemeChar found at h
  split at h
  · cases h
    rw [String.toList_ofList, head?_map]
    intro hslash
    obtain ⟨c, hc, hlower⟩ := map_eq_some_iff.mp hslash
    have hmem : c ∈ found := mem_of_mem_head? hc
    have hchar := mem_takeWhile_imp hmem
    rw [Char.eq_slash_of_toLower hlower] at hchar
    exact absurd hchar (by decide)
  · cases h

/-! ## Joining an absolute reference -/

namespace Url

/-- The text that names the host of a file URL, behind its two slashes. -/
def fileHostText (rest : List Char) : List Char :=
  rest.takeWhile fun c => !(isAnySlash c || c == '?' || c == '#')

/-- A reference that begins with two slashes names a host, and none that `base` can have. -/
def RefusesHost (base : Url) : List Char → Prop
  | _ :: b :: rest =>
    isAnySlash b = true ∧
      if base.kind = .file then
        isDriveLetter (fileHostText rest) = false ∧ readFileHost? (fileHostText rest) = none
      else readAuthority? base.scheme (if b = '/' then rest else rest.dropWhile isAnySlash) = none
  | _ => False

variable {base : Url} {specifier : String}

theorem readFile?_eq_none {b : Char} (hb : isAnySlash b = true) (rest : List Char)
    (breaks : List Nat) : readFile? (some base) breaks ('/' :: b :: rest) = none ↔
      isDriveLetter (fileHostText rest) = false ∧ readFileHost? (fileHostText rest) = none := by
  unfold readFile?
  dsimp only
  rw [← fileHostText, hb, if_pos (show (isAnySlash '/' && true) = true from rfl)]
  cases isDriveLetter (fileHostText rest) with
  | true => simp
  | false =>
    cases readFileHost? (fileHostText rest) with
    | none => simp
    | some host =>
      rw [if_neg Bool.false_ne_true, bind_eq_bind, bind_some]
      split <;> simp

theorem joinRelative?_eq_none (hwhole : base.hasOpaquePath = false) (rest : List Char)
    (breaks : List Nat) :
    base.joinRelative? breaks ('/' :: rest) = none ↔ base.RefusesHost ('/' :: rest) := by
  have hslash : isAnySlash '/' = true := rfl
  cases rest with
  | nil =>
    cases hkind : base.kind <;>
      simp [joinRelative?, hwhole, hslash, hkind, readFile?, RefusesHost]
  | cons b rest =>
    cases hb : isAnySlash b with
    | false =>
      cases hkind : base.kind <;>
        simp [joinRelative?, hwhole, hslash, hkind, hb, readFile?, RefusesHost]
    | true =>
      by_cases hkind : base.kind = .file
      · simp [joinRelative?, hwhole, hkind, hb, readFile?_eq_none hb, RefusesHost]
      · by_cases hplain : b = '/'
        · simp [joinRelative?, hwhole, hslash, hkind, hplain, RefusesHost]
        · simp [joinRelative?, hwhole, hslash, hkind, hb, hplain, RefusesHost]

theorem join?_of_slash (hspecifier : specifier.toList.head? = some '/') :
    base.join? specifier = if base.hasOpaquePath then none
      else
        base.joinRelative? (ofText specifier).breaks (ofText specifier).text := by
  obtain ⟨rest, hrest⟩ := exists_ofText_slash hspecifier
  simp [join?, hrest, readScheme?_of_slash]

theorem join?_eq_none_iff (hspecifier : specifier.toList.head? = some '/') :
    base.join? specifier = none ↔
      base.hasOpaquePath = true ∨ base.RefusesHost (ofText specifier).text := by
  obtain ⟨rest, hrest⟩ := exists_ofText_slash hspecifier
  rw [join?_of_slash hspecifier, hrest]
  cases hwhole : base.hasOpaquePath with
  | true => simp
  | false => simpa using joinRelative?_eq_none hwhole rest _

theorem joinRelative?_scheme (breaks : List Nat) (input : List Char) :
    GivesScheme base.scheme (base.joinRelative? breaks input) := by
  unfold joinRelative?
  dsimp only
  split
  · exact .some rfl
  · refine .ite (.some rfl) (.ite .none (.ite (.some rfl) ?_))
    split
    · rename_i hkind
      have hfile := SchemeKind.of_eq_file (beq_iff_eq.mp hkind)
      rw [hfile]
      exact readFile?_scheme (by simpa using hfile) _ _
    · refine .ite (.ite ?_ (.some rfl)) (.some rfl)
      split <;> exact readAuthority?_scheme _ _

/-- What is joined with an absolute reference has the scheme of the base. -/
theorem join?_scheme (hspecifier : specifier.toList.head? = some '/')
    (h : base.join? specifier = some u) : u.scheme = base.scheme := by
  rw [join?_of_slash hspecifier] at h
  exact GivesScheme.ite .none (joinRelative?_scheme _ _) u h

theorem head?_render (h : u.scheme.toList.head? ≠ some '/') : u.render.toList.head? ≠ some '/' := by
  unfold render
  simp only [String.toList_append]
  cases hscheme : u.scheme.toList with
  | nil => simp
  | cons c rest => simpa [hscheme] using h

theorem originFrom?_ne_empty {depth : Nat} {u : Url} {origin : String}
    (h : originFrom? depth u = some origin) : origin ≠ "" := by
  induction depth generalizing u with
  | zero => cases h
  | succ depth ih =>
    unfold originFrom? at h
    split at h
    · obtain ⟨inner, _, hinner⟩ := bind_eq_some_iff.mp h
      exact ih hinner
    · split at h
      · obtain ⟨host, _, rfl⟩ := map_eq_some_iff.mp h
        rw [← String.toList_inj.ne]
        simp
      · cases h

end Url

/-- Origins and joined URLs are written with their scheme in front. -/
structure UrlReader.WritesScheme (urls : UrlReader) : Prop where
  origin_ne : ∀ u origin, urls.origin? u = some origin → origin ≠ ""
  head?_join : ∀ {text base reference u}, urls.parse? text = some base →
    reference.toList.head? = some '/' → urls.join? base reference = some u →
      (urls.render u).toList.head? ≠ some '/'

theorem Url.reader_writesScheme : Url.reader.WritesScheme where
  origin_ne _ _ h := originFrom?_ne_empty h
  head?_join hbase hslash hu := by
    obtain ⟨rest, hscheme⟩ := parse?_scheme hbase
    refine head?_render ?_
    rw [join?_scheme hslash hu]
    exact readScheme?_head hscheme

/-! ## Absolute specifiers -/

namespace Specifier

variable {specifier path : String}

theorem isAbsolute_iff : isAbsolute specifier = true ↔ specifier.toList.head? = some '/' :=
  startsWith_iff_head? rfl

section

variable {urls : UrlReader}

/-- Against a URL, an absolute specifier is put after the origin or joined. -/
theorem resolveAbsolute?_of_url (specifier : String) {base : urls.Reading}
    (hbase : urls.urlOf? path = some base) :
    (∃ origin, specifier.startsWith "//" = false ∧ urls.origin? base = some origin ∧
      urls.resolveAbsolute? specifier path = some (origin ++ specifier)) ∨
    (specifier.startsWith "//" = true ∨ urls.origin? base = none) ∧
      urls.resolveAbsolute? specifier path = (urls.join? base specifier).map urls.render := by
  unfold UrlReader.resolveAbsolute?
  rw [hbase, bind_eq_bind, bind_some]
  cases hdouble : specifier.startsWith "//" with
  | true => exact .inr ⟨.inl rfl, by cases urls.join? base specifier <;> rfl⟩
  | false =>
    cases horigin : urls.origin? base with
    | none => exact .inr ⟨.inr rfl, by cases urls.join? base specifier <;> rfl⟩
    | some origin => exact .inl ⟨origin, rfl, rfl, rfl⟩

theorem resolveAbsolute?_ne (hurls : urls.WritesScheme) (path : String)
    (habsolute : isAbsolute specifier = true) :
    urls.resolveAbsolute? specifier path ≠ some specifier := by
  intro hself
  have hslash := isAbsolute_iff.mp habsolute
  obtain ⟨base, hbase, _⟩ := bind_eq_some_iff.mp hself
  rcases resolveAbsolute?_of_url specifier hbase with ⟨origin, _, horigin, hplaced⟩ | ⟨_, hjoined⟩
  · have htext := congrArg String.toList (Option.some.inj (hplaced.symm.trans hself))
    rw [String.toList_append, append_left_eq_self] at htext
    exact hurls.origin_ne base origin horigin (String.toList_eq_nil_iff.mp htext)
  · obtain ⟨u, hu, hrender⟩ := map_eq_some_iff.mp (hjoined.symm.trans hself)
    exact hurls.head?_join (filter_eq_some_iff.mp hbase).1 hslash hu (hrender.symm ▸ hslash)

/-- With any such reader, an absolute specifier stays as it is exactly if nothing can be made of it;
without requiring an origin it does so exactly if it is joined to a URL, and that fails. -/
theorem resolve_eq_self_iff (hurls : urls.WritesScheme) (habsolute : isAbsolute specifier = true)
    (hpath : path ≠ "") :
    (urls.requiresOrigin specifier (some path) = true →
      urls.resolve specifier (some path) = specifier) ∧
    (urls.resolve specifier (some path) = specifier ↔
      urls.resolveAbsolute? specifier path = none) ∧
    (urls.resolve specifier (some path) = specifier ∧
        urls.requiresOrigin specifier (some path) = false ↔
      ∃ base, urls.urlOf? path = some base ∧
        (specifier.startsWith "//" = true ∨ urls.origin? base = none) ∧
        urls.join? base specifier = none) := by
  have hslash := isAbsolute_iff.mp habsolute
  have hempty : path.isEmpty = false := by simpa using hpath
  have hrelative : isRelative specifier = false := by
    rw [← Bool.not_eq_true, isRelative_iff, hslash]
    simp
  have hresolve : urls.resolve specifier (some path) =
      (urls.resolveAbsolute? specifier path).getD specifier := by
    simp [UrlReader.resolve, hempty, hrelative, habsolute]
  have hnote : urls.requiresOrigin specifier (some path) = (urls.urlOf? path).isNone := by
    simp [UrlReader.requiresOrigin, hempty, habsolute]
  have hsame : urls.resolve specifier (some path) = specifier ↔
      urls.resolveAbsolute? specifier path = none := by
    rw [hresolve]
    cases hresolved : urls.resolveAbsolute? specifier path with
    | none => simp
    | some text =>
      have hne := resolveAbsolute?_ne hurls path habsolute
      rw [hresolved] at hne
      simpa using hne
  rw [hsame, hnote]
  refine ⟨?_, Iff.rfl, ?_⟩
  · intro hnone
    simp [UrlReader.resolveAbsolute?, isNone_iff_eq_none.mp hnone]
  · cases hbase : urls.urlOf? path with
    | none => simp
    | some base =>
      rcases resolveAbsolute?_of_url specifier hbase with
        ⟨origin, hdouble, horigin, hplaced⟩ | ⟨hjoins, hjoined⟩
      · simp [hplaced, hdouble, horigin]
      · rw [hjoined, map_eq_none_iff]
        constructor
        · rintro ⟨hnone, _⟩
          exact ⟨base, rfl, hjoins, hnone⟩
        · rintro ⟨_, ⟨⟩, _, hnone⟩
          exact ⟨hnone, rfl⟩

end

/-- An absolute specifier that requires an origin stays as it is. Without requiring one it does so
exactly if the path is a URL that offers no origin or is not asked for it, and either has an opaque
path or cannot have the host that the specifier names. -/
theorem resolve_unanchored_iff (habsolute : isAbsolute specifier = true) (hpath : path ≠ "") :
    (requiresOrigin specifier (some path) = true → resolve specifier (some path) = specifier) ∧
      (resolve specifier (some path) = specifier ↔ resolveAbsolute? specifier path = none) ∧
      (resolve specifier (some path) = specifier ∧ requiresOrigin specifier (some path) = false ↔
        ∃ base, urlOf? path = some base ∧
          (specifier.startsWith "//" = true ∨ base.origin? = none) ∧
          (base.hasOpaquePath = true ∨ base.RefusesHost (Reference.ofText specifier).text)) := by
  obtain ⟨hnote, hsame, hiff⟩ := resolve_eq_self_iff Url.reader_writesScheme habsolute hpath
  refine ⟨hnote, hsame, hiff.trans (exists_congr fun base => ?_)⟩
  rw [← Url.join?_eq_none_iff (isAbsolute_iff.mp habsolute)]

/-- A host and port without a scheme are read as a URL with an opaque path. -/
theorem resolve_unanchored_localhost :
    isAbsolute "/x.js" = true ∧ "localhost:8080/src/main.js" ≠ "" ∧
      resolve "/x.js" (some "localhost:8080/src/main.js") = "/x.js" ∧
      requiresOrigin "/x.js" (some "localhost:8080/src/main.js") = false := by
  have habsolute : isAbsolute "/x.js" = true := isAbsolute_iff.mpr (by decide)
  have hpath : "localhost:8080/src/main.js" ≠ "" := by decide
  have hbase : urlOf? "localhost:8080/src/main.js" = some ⟨"localhost", "", none, none, none,
      .opaqueText "8080/src/main.js", none, none⟩ := by cbv
  refine ⟨habsolute, hpath, (resolve_unanchored_iff habsolute hpath).2.2.mpr ?_⟩
  exact ⟨_, hbase, .inr (by cbv), .inl rfl⟩

end Specifier

end ModuleBridge
