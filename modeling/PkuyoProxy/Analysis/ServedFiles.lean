import PkuyoProxy.Analysis.LocalResponses
import PkuyoProxy.Analysis.ResponseOrder
import PkuyoProxy.Analysis.UrlDecoding

/-!
# Every file below the root directory is served

A file is asked for by its path below the root directory, with every byte but a few written as
an escape.  Decoding gives the path back, `realpath` resolves it to the file, whose text begins
with that of the root directory, and the client is pushed one response with the bytes of the
file (`file_served`).
-/

set_option autoImplicit false

namespace PkuyoProxy.Analysis

open PkuyoProxy.Lib PkuyoProxy.Model PkuyoProxy.Interface

/-- The response with a file has its content, and the header of a response made here. -/
theorem fileResponse_eq (fullPath content : Bytes) :
    fileResponse fullPath content =
      { isCompleted := true, header := localHeader 200 (getMimeType fullPath) content, content,
        response := { statusCode := 200 } } := by
  have hheader : localHeader 200 (getMimeType fullPath) content =
      ascii "HTTP/1.1 200 OK\r\n" ++
        ascii "Content-Type: " ++ getMimeType fullPath ++ crlf ++
        ascii "Content-Length: " ++ decimal content.length ++ crlf ++
        ascii "Connection: close\r\n\r\n" := by
    have hdecimal : decimal 200 = ascii "200" := by decide
    simp [localHeader, hdecimal, getStatusMsg, ascii, crlf]
  have hhead := @getResponseHead_local
    { header := localHeader 200 (getMimeType fullPath) content, content : HttpContext }.complete 200
    (by decide) _ _ rfl
  unfold fileResponse
  dsimp only
  rw [← hheader, hhead]
  rfl

/-! ## Paths without a terminator -/

/-- The text of a canonical path contains no zero byte. -/
theorem zero_notMem_text (p : CanonicalPath) : (0 : UInt8) ∉ p.text := by
  unfold CanonicalPath.text
  split
  · decide
  · intro hmem
    obtain ⟨name, hname, hmem⟩ := List.mem_flatMap.mp hmem
    rcases List.mem_cons.mp hmem with hslash | hmem
    · exact absurd hslash (by decide)
    · exact (p.valid name hname).2.2.1 hmem

/-- A text without zero bytes is the same as a C string. -/
theorem cStr_eq_self {s : Bytes} (h : 0 ∉ s) : cStr s = s := by
  rw [cStr, List.takeWhile_eq_self_iff]
  intro c hc
  have hne : c ≠ 0 := by
    rintro rfl
    exact h hc
  simpa using hne

/-! ## Requests for files -/

/-- The bytes that stand for themselves in a request. -/
def IsPlain (c : UInt8) : Prop :=
  (48 ≤ c ∧ c ≤ 57) ∨ (65 ≤ c ∧ c ≤ 90) ∨ (97 ≤ c ∧ c ≤ 122) ∨ c ∈ ascii "/.-_~"

instance (c : UInt8) : Decidable (IsPlain c) := inferInstanceAs (Decidable (_ ∨ _ ∨ _ ∨ _))

/-- The percent sign does not stand for itself. -/
theorem not_isPlain_percent : ¬ IsPlain 37 := by decide

/-- A byte that stands for itself is not changed to a space. -/
theorem plusToSpace_of_isPlain {c : UInt8} (h : IsPlain c) : plusToSpace c = c := by
  have hplus : ¬ IsPlain 43 := by decide
  apply if_neg
  rintro rfl
  exact hplus h

/-- Every encoding of a path is decoded to the path. -/
theorem urlDecode_encoded {p url : Bytes} (h : PercentEncoded IsPlain p url) :
    urlDecode (47 :: url) = .ok (47 :: p) := by
  have hdecoded : urlDecode url = .ok p := by
    rw [urlDecode_of_wellEscaped (wellEscaped_of_encoded not_isPlain_percent h),
      percentDecode_of_encoded not_isPlain_percent (fun _ hc => plusToSpace_of_isPlain hc) h]
  rw [urlDecode_cons (by decide), hdecoded]
  rfl

section Served

variable {fs : FileSystem} {root path : CanonicalPath} {p bytes : Bytes}

/-- The file is resolved, whatever escapes its request uses. -/
theorem resolveFullPath_encoded (hpath : path.text = root.text ++ 47 :: p)
    (hreal : fs.realpath (root.text ++ ascii "//" ++ p) = some path) {url : Bytes}
    (hurl : PercentEncoded IsPlain p url) :
    resolveFullPath fs root.text (47 :: url) = .ok (true, path.text) := by
  have hcombined : root.text ++ ascii "/" ++ 47 :: p = root.text ++ ascii "//" ++ p := by
    simp [ascii]
  have hzero : (0 : UInt8) ∉ root.text ++ ascii "//" ++ p := by
    have hroot := zero_notMem_text root
    have hp := zero_notMem_text path
    rw [hpath] at hp
    simp only [List.mem_append, List.mem_cons, not_or] at hp ⊢
    exact ⟨⟨hroot, by decide⟩, hp.2.2⟩
  rw [resolveFullPath_eq_true]
  refine ⟨47 :: p, path, urlDecode_encoded hurl, ?_, ?_, rfl⟩
  · rw [hcombined, cStr_eq_self hzero, hreal]
  · exact ⟨47 :: p, hpath.symm⟩

/-- A regular file that can be read is served. -/
theorem serveFile_regular (hregular : fs.isRegular path.text = true)
    (hread : fs.read path.text = some bytes) :
    serveFile fs path.text =
      { response := fileResponse path.text bytes, served := some path.text } := by
  simp [serveFile, hregular, hread]

/-- The client's handler pushes a valid response as it is. -/
theorem recvResponse_valid {pair : ProxyPair} (hside : pair.client.handler.isRequest = true)
    (io : HandOver) {response : HttpContext} (hvalid : response.response.isValid = true) :
    (pair.recvResponse io response).client.pushed =
      pair.client.pushed ++ [response.moved] := by
  have htake : takeOn pair.client.handler.isRequest response = .inl response := by
    rw [hside]
    simp [takeOn, hvalid]
  exact (recvContent_takenOn htake io.client).1

/-- **Every file below the root directory is served**: some request asks for it, and each one
that does is answered by one response, with status 200 and the bytes of the file. -/
theorem file_served (hpath : path.text = root.text ++ 47 :: p)
    (hreal : fs.realpath (root.text ++ ascii "//" ++ p) = some path)
    (hregular : fs.isRegular path.text = true) (hread : fs.read path.text = some bytes) :
    (∃ url, PercentEncoded IsPlain p url) ∧
    ∀ url, PercentEncoded IsPlain p url → ∀ context : HttpContext,
      context.request.method = ascii "GET" → context.request.urlPath = 47 :: url →
      ∀ (pair : ProxyPair) (io : HandOver), io.fs = fs →
        pair.backend = .staticFile root.text → pair.client.handler.isRequest = true →
      ∃ pair' response, pair.recvRequest io context = .ok pair' ∧
        pair'.client.pushed = pair.client.pushed ++ [response] ∧
        response.response.statusCode = 200 ∧ response.content = bytes := by
  refine ⟨exists_percentEncoded IsPlain p, ?_⟩
  rintro url hurl context hmethod hurlPath pair io rfl hbackend hside
  have hanswer : staticRecvContent io.fs root.text context =
      .ok { response := fileResponse path.text bytes, served := some path.text } := by
    rw [staticRecvContent, if_neg (by simp [hmethod]), hurlPath,
      resolveFullPath_encoded hpath hreal hurl]
    show Except.ok (serveFile io.fs path.text) = _
    rw [serveFile_regular hregular hread]
  refine ⟨pair.recvResponse io (fileResponse path.text bytes),
    (fileResponse path.text bytes).moved, ?_, ?_, ?_, ?_⟩
  · simp only [ProxyPair.recvRequest, hbackend, hanswer]
  · apply recvResponse_valid hside
    rw [fileResponse_eq]
    rfl
  · rw [fileResponse_eq]
    rfl
  · rw [fileResponse_eq]
    rfl

end Served

/-! ## A file whose name needs escapes -/

/-- The file `/www/a +%é`, the last letter in two bytes. -/
def oddFile : CanonicalPath := ⟨[ascii "www", ascii "a +%" ++ [195, 169]], by decide⟩

/-- A file system with that file; it knows its name with two slashes as well. -/
def oddFiles : FileSystem where
  realpath name :=
    if name = ascii "/www//a +%" ++ [195, 169] ∨ name = oddFile.text then some oddFile else none
  isRegular name := name = oddFile.text
  read name := if name = oddFile.text then some [0, 255] else none

/-- A file with a blank, two signs and a letter of two bytes in its name is served. -/
theorem file_served_odd :
    (∃ url, PercentEncoded IsPlain (ascii "a +%" ++ [195, 169]) url) ∧
    ∃ pair' response,
      ProxyPair.recvRequest { fs := oddFiles }
        { request := { urlPath := ascii "/a%20%2B%25%c3%A9", method := ascii "GET" } }
        ⟨.opened true {}, .staticFile www.text⟩ = .ok pair' ∧
      pair'.client.pushed = [response] ∧
      response.response.statusCode = 200 ∧ response.content = [0, 255] := by
  obtain ⟨hexists, hserved⟩ := @file_served oddFiles www oddFile (ascii "a +%" ++ [195, 169])
    [0, 255] (by decide) rfl (by decide) rfl
  refine ⟨hexists, ?_⟩
  have hurl : PercentEncoded IsPlain (ascii "a +%" ++ [195, 169]) (ascii "a%20%2B%25%c3%A9") := by
    apply PercentEncoded.kept (by decide)
    refine .escaped (by decide) (by decide) (.escaped (by decide) (by decide) ?_)
    exact .escaped (by decide) (by decide) (.escaped (by decide) (by decide)
      (.escaped (by decide) (by decide) .nil))
  exact hserved _ hurl
    { request := { urlPath := ascii "/a%20%2B%25%c3%A9", method := ascii "GET" } } rfl rfl
    ⟨.opened true {}, .staticFile www.text⟩ { fs := oddFiles } rfl rfl rfl

end PkuyoProxy.Analysis
