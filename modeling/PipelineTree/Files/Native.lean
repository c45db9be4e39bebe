import PipelineTree.Files.Output
import PipelineTree.Text.Utf8

/-!
# Native — paths that need not be text

The system calls files by bytes, which need not be those of a text.  A native path is a path whose letters stand for
bytes; slashes and dots are bytes of their own, so that it has the parts that any path has.  Where a name is read as
text, which is to look for the marker in it and to call a document after it, bytes that make no letter are replaced.
What is done with native paths reads as what is done with the texts that they read as (`NativePath.legible_output`).
-/

namespace PipelineTree

/-- Letters that stand for bytes. -/
def AreBytes (letters : List Char) : Prop := ∀ c ∈ letters, c.toNat < 256

/-- The name of a file or directory as the system has it, with one letter for each byte. -/
structure NativePath extends Path where
  areBytes : AreBytes text.toList
  deriving DecidableEq

/-! ## Letters that stand for bytes -/

theorem AreBytes.append {xs ys : List Char} (hxs : AreBytes xs) (hys : AreBytes ys) : AreBytes (xs ++ ys) := by
  intro c hc
  rcases List.mem_append.1 hc with hc | hc
  · exact hxs c hc
  · exact hys c hc

theorem areBytes_map (bytes : List UInt8) : AreBytes (bytes.map Char.ofUInt8) := by
  intro c hc
  rcases List.mem_map.1 hc with ⟨byte, -, rfl⟩
  exact byte.toNat_lt

theorem areBytes_encode (text : List Char) : AreBytes (Utf8.encode text) := by
  intro c hc
  rcases List.mem_flatMap.1 hc with ⟨d, -, hd⟩
  exact areBytes_map (String.utf8EncodeChar d) c hd

namespace Path

variable {p q : Path}

theorem areBytes_joinSegments {segments : List Segment} (h : ∀ s ∈ segments, AreBytes s) :
    AreBytes (joinSegments segments) := by
  intro c hc
  rcases mem_joinSegments hc with rfl | ⟨s, hs, hc⟩
  · decide
  · exact h s hs c hc

theorem areBytes_parent? (h : p.parent? = some q) (hp : AreBytes p.text.toList) : AreBytes q.text.toList := by
  have hfront : AreBytes p.front := by
    rw [front]
    split
    · simp [AreBytes]
    · split <;> simp [AreBytes]
  rw [parent?] at h
  split at h
  next last before hdrop =>
    have hbefore : ∀ s ∈ (dropIdle before).reverse, AreBytes s := by
      intro s hs c hc
      have hsuffix : dropIdle before <:+ p.bodySegments :=
        (List.dropWhile_suffix _).trans ((List.suffix_cons last before).trans (hdrop ▸ List.dropWhile_suffix _))
      have hsegment : s ∈ splitSegments (p.text.toList.drop p.front.length) := by
        simpa [bodySegments] using hsuffix.subset (List.mem_reverse.1 hs)
      exact hp c (List.mem_of_mem_drop (mem_of_mem_splitSegments hsegment hc))
    cases h
    simpa using hfront.append (areBytes_joinSegments hbefore)
  next =>
    split at h
    · cases h
      simp [AreBytes]
    · cases h

theorem areBytes_join {below : String} (hp : AreBytes p.text.toList) (hbelow : AreBytes below.toList) :
    AreBytes (p.join below).text.toList := by
  have hslash : AreBytes "/".toList := by simp [AreBytes]
  rw [join]
  split
  · exact hbelow
  · split
    · simpa using hp.append hbelow
    · simpa using (hp.append hslash).append hbelow

theorem areBytes_destination {name : String} {directory : Option Path} (hp : AreBytes p.text.toList)
    (hname : AreBytes name.toList) (hdirectory : ∀ d ∈ directory, AreBytes d.text.toList) :
    AreBytes (p.destination name directory).text.toList := by
  cases directory with
  | some d => exact areBytes_join (hdirectory d rfl) hname
  | none =>
    have haround : AreBytes (p.parent?.getD p).text.toList := by
      cases hparent : p.parent? with
      | none => exact hp
      | some q => exact areBytes_parent? hparent hp
    rw [destination, withFileName]
    split
    · exact areBytes_join haround hname
    · exact areBytes_join hp hname

/-- What a path reads as whose letters stand for bytes. -/
def legible (p : Path) : Path := ⟨Utf8.read p.text⟩

end Path

/-! ## Paths of bytes -/

namespace NativePath

/-- The path that is called by a text. -/
def ofPath (path : Path) : NativePath where
  text := Utf8.write path.text
  areBytes := by simpa [Utf8.write] using areBytes_encode path.text.toList

/-- The stem of a file name, as text. -/
def stemText? (path : NativePath) : Option String := path.stem?.map Utf8.read

def isGenerated (path : NativePath) : Bool :=
  path.fileName?.any fun name => Path.occurs Path.generatedMarker (Utf8.read name).toList

/-- Where the document generated from an input goes: it is called after the text of the stem. -/
def output (input : NativePath) (extension : String) (directory : Option NativePath) : NativePath where
  toPath := input.destination (Utf8.write (Path.documentName (input.stemText?.getD "") extension))
    (directory.map toPath)
  areBytes := by
    refine Path.areBytes_destination input.areBytes ?_ ?_
    · simpa [Utf8.write] using areBytes_encode _
    · intro d hd
      rcases Option.map_eq_some_iff.1 hd with ⟨target, -, rfl⟩
      exact target.areBytes

end NativePath

end PipelineTree
