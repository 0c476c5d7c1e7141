import PkuyoProxy.Model.StaticFile

/-!
# Which files `StaticFileHandler` serves

The only check on a resolved path is that its text begins with the text of the root
directory (proxy_handler.cpp:496), without a separator behind it.  It keeps out everything
but the siblings of the root directory whose names extend that of the root directory.
-/

set_option autoImplicit false

namespace PkuyoProxy.Analysis

open PkuyoProxy.Lib PkuyoProxy.Model

/-! ## Decoding -/

/-- A byte other than the percent sign is decoded on its own. -/
theorem urlDecode_cons {c : UInt8} (hc : c ≠ 37) (str : Bytes) :
    urlDecode (c :: str) = (urlDecode str).map (plusToSpace c :: ·) := by
  rcases str with _ | ⟨c₁, _ | ⟨c₂, str⟩⟩
  · rfl
  · rfl
  · rw [urlDecode, if_neg hc]
    cases urlDecode (c₁ :: c₂ :: str) <;> rfl

/-- An escape is decoded to the byte of its number. -/
theorem urlDecode_escape {c₁ c₂ : UInt8} {n : ℤ} (h : stoi 16 [c₁, c₂] = .ok n) (str : Bytes) :
    urlDecode (37 :: c₁ :: c₂ :: str) = (urlDecode str).map (toChar n :: ·) := by
  rw [urlDecode, if_pos rfl, h]
  cases urlDecode str <;> rfl

/-- An escape for the two bytes that decoding changes. -/
def escapeByte (c : UInt8) : Bytes :=
  if c = 37 then ascii "%25" else if c = 43 then ascii "%2B" else [c]

/-- The escape of a byte is decoded to this byte. -/
theorem urlDecode_escapeByte (c : UInt8) (str : Bytes) :
    urlDecode (escapeByte c ++ str) = (urlDecode str).map (c :: ·) := by
  unfold escapeByte
  split
  case isTrue h =>
    subst h
    have hhex : stoi 16 [50, 53] = .ok 37 := by decide
    exact urlDecode_escape hhex str
  case isFalse h37 =>
    split
    case isTrue h =>
      subst h
      have hhex : stoi 16 [50, 66] = .ok 43 := by decide
      exact urlDecode_escape hhex str
    case isFalse h43 =>
      rw [List.singleton_append, urlDecode_cons h37, plusToSpace, if_neg h43]

/-- Every text is the decoded path of some request. -/
theorem urlDecode_escaped (name : Bytes) : urlDecode (name.flatMap escapeByte) = .ok name := by
  induction name with
  | nil => rfl
  | cons c name ih =>
    rw [List.flatMap_cons, urlDecode_escapeByte, ih]
    rfl

/-! ## Paths and their texts -/

/-- The text of a path that is not the root is that of its components. -/
theorem text_of_ne {p : CanonicalPath} (h : p.components ≠ []) :
    p.text = pathText 47 p.components := if_neg h

/-- The text of a path that is not the root has more than one byte. -/
theorem one_lt_length_text {p : CanonicalPath} (h : p.components ≠ []) : 1 < p.text.length := by
  obtain ⟨name, path, hp⟩ := List.exists_cons_of_ne_nil h
  have hname : name ≠ [] := (p.valid name (by simp [hp])).1
  have hpos := List.length_pos_iff.mpr hname
  rw [text_of_ne h, hp, pathText_cons, List.length_cons, List.length_append]
  omega

/-- The check on the resolved path, in terms of the components. -/
theorem text_prefix_iff {root : CanonicalPath} (hroot : root.components ≠ [])
    (p : CanonicalPath) :
    root.text <+: p.text ↔
      root.components <+: p.components ∨ BesideExtension root.components p.components := by
  by_cases hp : p.components = []
  · have hlen := one_lt_length_text hroot
    have hslash : p.text = [47] := if_pos hp
    rw [hp]
    constructor
    · intro h
      have hle := h.length_le
      rw [hslash, List.length_singleton] at hle
      omega
    · rintro (h | h)
      · exact absurd (List.prefix_nil.mp h) hroot
      · exact absurd h (not_besideExtension_nil _)
  · rw [text_of_ne hroot, text_of_ne hp]
    exact prefix_text_iff hroot root.not_mem_component p.not_mem_component

/-- The path is the root directory, or begins with it and a slash. -/
def Inside (rootDir path : Bytes) : Prop := path = rootDir ∨ rootDir ++ [47] <+: path

/-- A path is inside of a root exactly if its components begin with those of the root. -/
theorem inside_iff {root : CanonicalPath} (hroot : root.components ≠ []) (p : CanonicalPath) :
    Inside root.text p.text ↔ root.components <+: p.components := by
  by_cases hp : p.components = []
  · have hlen := one_lt_length_text hroot
    have hslash : p.text = [47] := if_pos hp
    rw [hp, List.prefix_nil, Inside, hslash]
    constructor
    · rintro (h | h)
      · rw [← h, List.length_singleton] at hlen
        omega
      · have hle := h.length_le
        simp only [List.length_append, List.length_singleton] at hle
        omega
    · intro h
      exact absurd h hroot
  · rw [Inside, text_of_ne hroot, text_of_ne hp]
    exact below_text_iff root.not_mem_component p.not_mem_component

/-! ## Resolving and serving -/

/-- A decoded path is resolved to the canonical path behind the root, if there is one. -/
theorem resolveFullPath_decoded {urlPath decoded : Bytes} (h : urlDecode urlPath = .ok decoded)
    (fs : FileSystem) (rootDir : Bytes) :
    resolveFullPath fs rootDir urlPath =
      match fs.realpath (cStr (rootDir ++ ascii "/" ++ decoded)) with
      | none => .ok (false, [])
      | some resolved => .ok (find rootDir resolved.text = some 0, resolved.text) := by
  rw [resolveFullPath, h]
  rfl

/-- A path is accepted exactly if the text of its canonical path begins with the text of the root.
-/
theorem resolveFullPath_eq_true (fs : FileSystem) (rootDir urlPath path : Bytes) :
    resolveFullPath fs rootDir urlPath = .ok (true, path) ↔
      ∃ decoded p, urlDecode urlPath = .ok decoded ∧
        fs.realpath (cStr (rootDir ++ ascii "/" ++ decoded)) = some p ∧
        rootDir <+: p.text ∧ path = p.text := by
  cases hd : urlDecode urlPath with
  | error e =>
    have hraise : resolveFullPath fs rootDir urlPath = .error e := by
      rw [resolveFullPath, hd]
      rfl
    simp [hraise]
  | ok decoded =>
    rw [resolveFullPath_decoded hd]
    constructor
    · intro h
      split at h
      · simp at h
      · rename_i p hp
        obtain ⟨hfind, rfl⟩ : find rootDir p.text = some 0 ∧ p.text = path := by simpa using h
        exact ⟨decoded, p, rfl, hp, (find_eq_zero_iff rootDir p.text).mp hfind, rfl⟩
    · rintro ⟨decoded', p, hdec, hp, hpre, rfl⟩
      cases hdec
      rw [hp]
      simp [(find_eq_zero_iff rootDir p.text).mpr hpre]

/-- The file that is served is the one at the path. -/
theorem served_eq_some {fs : FileSystem} {fullPath path : Bytes}
    (h : (serveFile fs fullPath).served = some path) : fullPath = path := by
  unfold serveFile at h
  split at h
  · cases h
  · split at h
    · cases h
    · exact Option.some.inj h

/-- What is served was accepted. -/
theorem resolved_of_served {fs : FileSystem} {rootDir path : Bytes} {context : HttpContext}
    {answer : StaticAnswer} (h : staticRecvContent fs rootDir context = .ok answer)
    (hserved : answer.served = some path) :
    resolveFullPath fs rootDir context.request.urlPath = .ok (true, path) := by
  unfold staticRecvContent at h
  split at h
  · cases h
    cases hserved
  · cases hr : resolveFullPath fs rootDir context.request.urlPath with
    | error e =>
      rw [hr] at h
      cases h
    | ok x =>
      obtain ⟨resolved, fullPath⟩ := x
      rw [hr] at h
      cases h
      cases resolved with
      | false => cases hserved
      | true => rw [served_eq_some hserved]

/-! ## Confinement -/

/-- Every path `resolve_full_path` accepts for this request, and every file served for it,
is inside the root directory. -/
structure Confined (fs : FileSystem) (rootDir urlPath : Bytes) : Prop where
  resolved : ∀ path, resolveFullPath fs rootDir urlPath = .ok (true, path) → Inside rootDir path
  served : ∀ context answer path, context.request.urlPath = urlPath →
    staticRecvContent fs rootDir context = .ok answer → answer.served = some path →
    Inside rootDir path

/-- In the file system `name`, taken below the root directory, is a sibling of the root
directory whose last component properly extends that of the root directory, or is below such
a sibling. -/
def NamesSibling (fs : FileSystem) (root : CanonicalPath) (name : Bytes) : Prop :=
  ∃ path, fs.realpath (cStr (root.text ++ ascii "/" ++ name)) = some path ∧
    BesideExtension root.components path.components

/-- If only paths inside of the root are accepted, only these are resolved and served. -/
theorem confined_of_resolved {fs : FileSystem} {rootDir urlPath : Bytes}
    (h : ∀ path, resolveFullPath fs rootDir urlPath = .ok (true, path) → Inside rootDir path) :
    Confined fs rootDir urlPath where
  resolved := h
  served := by
    intro context answer path hurl hanswer hserved
    apply h
    rw [← hurl]
    exact resolved_of_served hanswer hserved

/-- A request is confined if and only if what it decodes to names no such sibling. -/
theorem confined_iff_decoded (fs : FileSystem) {root : CanonicalPath}
    (hroot : root.components ≠ []) (urlPath : Bytes) :
    Confined fs root.text urlPath ↔
      ∀ name, urlDecode urlPath = .ok name → ¬ NamesSibling fs root name := by
  constructor
  · rintro h name hname ⟨path, hpath, hbeside⟩
    have haccepted : resolveFullPath fs root.text urlPath = .ok (true, path.text) := by
      rw [resolveFullPath_eq_true]
      exact ⟨name, path, hname, hpath, (text_prefix_iff hroot path).mpr (.inr hbeside), rfl⟩
    have hinside := h.resolved _ haccepted
    rw [inside_iff hroot] at hinside
    exact not_besideExtension_of_below hinside hbeside
  · intro h
    apply confined_of_resolved
    intro path hresolved
    rw [resolveFullPath_eq_true] at hresolved
    obtain ⟨name, p, hname, hp, hpre, rfl⟩ := hresolved
    rw [inside_iff hroot]
    rcases (text_prefix_iff hroot p).mp hpre with hbelow | hbeside
    · exact hbelow
    · exact absurd ⟨p, hp, hbeside⟩ (h name hname)

/-- **Requests are confined exactly as far as the file system has no sibling of the root
directory whose name extends that of the root directory**: a single request, when what it
decodes to does not name such a sibling, and all requests, when no text does. -/
theorem confined_iff (fs : FileSystem) (root : CanonicalPath) (hroot : root.components ≠ []) :
    (∀ urlPath, Confined fs root.text urlPath ↔
      ∀ name, urlDecode urlPath = .ok name → ¬ NamesSibling fs root name) ∧
    ((∀ urlPath, Confined fs root.text urlPath) ↔ ∀ name, ¬ NamesSibling fs root name) := by
  refine ⟨confined_iff_decoded fs hroot, ?_⟩
  constructor
  · intro h name
    exact (confined_iff_decoded fs hroot _).mp (h _) name (urlDecode_escaped name)
  · intro h urlPath
    rw [confined_iff_decoded fs hroot]
    intro name _
    exact h name

/-! ## A sibling directory -/

/-- The directory `/www`. -/
def www : CanonicalPath := ⟨[ascii "www"], by decide⟩

/-- The file `/www2/secret`. -/
def secret : CanonicalPath := ⟨[ascii "www2", ascii "secret"], by decide⟩

/-- A file system with that file; it knows one more name for it. -/
def siblingFiles : FileSystem where
  realpath name :=
    if name = ascii "/www//../www2/secret" ∨ name = secret.text then some secret else none
  isRegular name := name = secret.text
  read name := if name = secret.text then some (ascii "key") else none

/-- Beside the root there is a directory with a longer name: one request stays inside of the root,
another one leaves it. -/
theorem confined_iff_siblingFiles :
    Confined siblingFiles www.text (ascii "/index.html") ∧
      ¬ Confined siblingFiles www.text (ascii "/../www2/secret") := by
  have h := (confined_iff siblingFiles www (by decide)).1
  constructor
  · rw [h]
    rintro name hname ⟨path, hpath, -⟩
    have hdecoded : urlDecode (ascii "/index.html") = .ok (ascii "/index.html") := by decide
    have hmissing : (siblingFiles.realpath (cStr (www.text ++ ascii "/" ++
        ascii "/index.html"))).isSome = false := by decide
    cases hdecoded.symm.trans hname
    rw [hpath] at hmissing
    cases hmissing
  · rw [h]
    intro hnames
    apply hnames (ascii "/../www2/secret") rfl
    exact ⟨secret, rfl, [], ascii "www", ascii "2", [ascii "secret"], rfl, rfl, by decide⟩

/-- The request for `/../www2/secret` is served from outside of `/www`. -/
theorem not_confined_sibling :
    ¬ ∀ (fs : FileSystem) (root : CanonicalPath) (urlPath : Bytes), root.components ≠ [] →
      Confined fs root.text urlPath := by
  intro hall
  have hconfined := hall siblingFiles www (ascii "/../www2/secret") (by decide)
  have hserved : ∃ answer, staticRecvContent siblingFiles www.text
      { request := { urlPath := ascii "/../www2/secret", method := ascii "GET" } } = .ok answer ∧
      answer.served = some (ascii "/www2/secret") := ⟨_, rfl, by decide⟩
  obtain ⟨answer, hanswer, hpath⟩ := hserved
  have hinside := hconfined.served _ answer _ rfl hanswer hpath
  unfold Inside at hinside
  revert hinside
  decide

end PkuyoProxy.Analysis
