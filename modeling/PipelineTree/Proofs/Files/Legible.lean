import PipelineTree.Files.Native
import PipelineTree.Proofs.Files.Decoding
import PipelineTree.Proofs.Files.Segments

/-!
# Legible — what native paths read as

Paths are split at signs, and signs are read as themselves.  So every part of a native path reads as that part of what
the path reads as: its segments, its file name and the stem of it, the path around it, and what is joined to it.  The
document of an input, too, reads as the document of what the input reads as (`NativePath.legible_output`).
-/

namespace PipelineTree

open Utf8

namespace Path

variable {p q : Path}

/-! ## Segments -/

theorem isSign_slash : IsSign '/' := by decide

theorem isSign_dot : IsSign '.' := by decide

theorem toList_legible (p : Path) : p.legible.text.toList = decode p.text.toList := String.toList_ofList

theorem decode_joinSegments (segments : List Segment) :
    decode (joinSegments segments) = joinSegments (segments.map decode) := by
  induction segments with
  | nil => rfl
  | cons s ss ih =>
    cases ss with
    | nil => rfl
    | cons t ts =>
      calc
        decode (joinSegments (s :: t :: ts)) = decode (s ++ '/' :: joinSegments (t :: ts)) := rfl
        _ = decode s ++ '/' :: decode (joinSegments (t :: ts)) := decode_append_cons isSign_slash _ _
        _ = decode s ++ '/' :: joinSegments ((t :: ts).map decode) := by rw [ih]
        _ = joinSegments ((s :: t :: ts).map decode) := rfl

theorem splitSegments_decode (cs : List Char) : splitSegments (decode cs) = (splitSegments cs).map decode := by
  have hplain : ∀ s ∈ (splitSegments cs).map decode, '/' ∉ s := by
    intro s hs hslash
    rcases List.mem_map.1 hs with ⟨t, ht, rfl⟩
    exact slash_not_mem_of_mem_splitSegments ht (mem_of_mem_decode hslash isSign_slash)
  have hne : (splitSegments cs).map decode ≠ [] := by simpa using splitSegments_ne_nil cs
  rw [← splitSegments_joinSegments hne hplain, ← decode_joinSegments, joinSegments_splitSegments]

theorem segments_legible (p : Path) : p.legible.segments = p.segments.map decode := by
  rw [segments, toList_legible, splitSegments_decode, segments]

/-- A row of dots is what it reads as. -/
theorem decode_eq_dots_iff (count : Nat) {s : Segment} :
    decode s = List.replicate count '.' ↔ s = List.replicate count '.' :=
  decode_eq_iff fun _ hc => List.eq_of_mem_replicate hc ▸ isSign_dot

theorem isIdle_decode (s : Segment) : isIdle (decode s) = isIdle s := by
  have hdot : decode s = ['.'] ↔ s = ['.'] := decode_eq_dots_iff 1
  rw [Bool.eq_iff_iff, isIdle, isIdle]
  simp only [Bool.or_eq_true, beq_iff_eq, decode_eq_nil_iff, hdot]

theorem isIdle_comp_decode : isIdle ∘ decode = isIdle := funext isIdle_decode

theorem dropIdle_map_decode (segments : List Segment) :
    dropIdle (segments.map decode) = (dropIdle segments).map decode := by
  rw [dropIdle, List.dropWhile_map, isIdle_comp_decode, dropIdle]

theorem steps_legible (p : Path) : p.legible.steps = p.steps.map decode := by
  have hidle : (fun s => !isIdle s) ∘ decode = fun s => !isIdle s := funext fun s => by simp [isIdle_decode]
  rw [steps, steps, stepsOf, stepsOf, segments_legible, List.filter_map, hidle]

/-! ## Parts -/

theorem head?_decode {cs : List Char} : (decode cs).head? = some '/' ↔ cs.head? = some '/' := by
  rw [List.head?_eq_some_iff, List.head?_eq_some_iff]
  constructor
  · rintro ⟨text, htext⟩
    rcases (decode_eq_cons_iff isSign_slash).1 htext with ⟨rest, hrest, -⟩
    exact ⟨rest, hrest⟩
  · rintro ⟨rest, rfl⟩
    exact ⟨decode rest, decode_cons isSign_slash rest⟩

theorem isAbsolute_legible (p : Path) : p.legible.isAbsolute = p.isAbsolute := by
  rw [Bool.eq_iff_iff, isAbsolute, isAbsolute, toList_legible, beq_iff_eq, beq_iff_eq, head?_decode]

theorem front_legible (p : Path) : p.legible.front = p.front := by
  have hhead : p.legible.segments.head? = some ['.'] ↔ p.segments.head? = some ['.'] := by
    rw [segments_legible, List.head?_map]
    cases p.segments.head? with
    | none => simp
    | some s => simpa using decode_eq_dots_iff 1 (s := s)
  simp only [front, isAbsolute_legible, beq_iff_eq, hhead]

theorem behindFront_legible (p : Path) : p.legible.behindFront = decode p.behindFront := by
  have hsplit : decode p.text.toList = p.front ++ decode p.behindFront := by
    rcases front_cases p with ⟨htext, ⟨hfront, -⟩ | ⟨hfront, -⟩ | ⟨hfront, -⟩⟩
    · rw [htext, hfront]
      rfl
    · rw [htext, hfront]
      exact decode_cons isSign_slash _
    · rw [htext, hfront]
      exact decode_cons isSign_dot _
  rw [behindFront, front_legible, toList_legible, hsplit, List.drop_left]

theorem bodySegments_legible (p : Path) : p.legible.bodySegments = p.bodySegments.map decode := by
  have hbehind := behindFront_legible p
  rw [behindFront] at hbehind
  rw [bodySegments, hbehind, splitSegments_decode, ← List.map_reverse]
  rfl

theorem legible_ofFront {front : List Char} (h : front = [] ∨ front = ['/'] ∨ front = ['.'])
    (segments : List Segment) : (ofFront front segments).legible = ofFront front (segments.map decode) := by
  have htext : decode (front ++ joinSegments segments) = front ++ joinSegments (segments.map decode) := by
    rw [← decode_joinSegments]
    rcases h with rfl | rfl | rfl
    · rfl
    · exact decode_cons isSign_slash _
    · exact decode_cons isSign_dot _
  simp only [legible, Utf8.read, ofFront, String.toList_ofList, htext]

theorem parent?_legible (p : Path) : p.legible.parent? = p.parent?.map legible := by
  have hfront : p.front = [] ∨ p.front = ['/'] ∨ p.front = ['.'] := by
    rcases (front_cases p).2 with ⟨hfront, -⟩ | ⟨hfront, -⟩ | ⟨hfront, -⟩
    · exact .inl hfront
    · exact .inr (.inl hfront)
    · exact .inr (.inr hfront)
  rw [parent?, parent?, bodySegments_legible, dropIdle_map_decode, front_legible]
  cases hdrop : dropIdle p.bodySegments with
  | nil =>
    by_cases hdot : p.front = ['.']
    · simp only [List.map_nil, hdot, beq_self_eq_true, if_true, Option.map_some]
      rfl
    · simp [hdot]
  | cons last before =>
    have hparent := legible_ofFront hfront (dropIdle before).reverse
    rw [ofFront, ofFront] at hparent
    simp only [List.map_cons, Option.map_some, hparent, dropIdle_map_decode, List.map_reverse]

theorem fileName?_legible (p : Path) : p.legible.fileName? = p.fileName?.map Utf8.read := by
  cases hname : p.fileName? with
  | some name =>
    rcases fileName?_eq_some_iff.1 hname with ⟨hlast, hdown⟩
    have hread : (Utf8.read name).toList = decode name.toList := String.toList_ofList
    rw [Option.map_some, fileName?_eq_some_iff, steps_legible, List.getLast?_map, hlast, hread]
    exact ⟨rfl, fun hdots => hdown ((decode_eq_dots_iff 2).1 hdots)⟩
  | none =>
    rw [Option.map_none, Option.eq_none_iff_forall_ne_some]
    intro name hlegible
    rw [fileName?_eq_some_iff, steps_legible, List.getLast?_map, Option.map_eq_some_iff] at hlegible
    rcases hlegible with ⟨⟨s, hlast, hread⟩, hdown⟩
    have hsome : p.fileName? = some (String.ofList s) := by
      rw [fileName?_eq_some_iff, String.toList_ofList]
      refine ⟨hlast, ?_⟩
      rintro rfl
      exact hdown (hread ▸ (decode_eq_dots_iff 2).2 rfl)
    rw [hname] at hsome
    cases hsome

theorem folder_legible (p : Path) : p.legible.folder = p.folder.legible := by
  rw [folder, folder, fileName?_legible, Option.isSome_map, parent?_legible]
  split
  · cases p.parent? <;> rfl
  · rfl

/-! ## Stems -/

theorem exists_last_of_mem {c : Char} {cs : List Char} (h : c ∈ cs) :
    ∃ before after, cs = before ++ c :: after ∧ c ∉ after := by
  rcases List.eq_append_cons_of_mem (List.mem_reverse.2 h) with ⟨after, before, hsplit, hnot⟩
  refine ⟨before.reverse, after.reverse, ?_, by simpa using hnot⟩
  rw [← List.reverse_reverse cs, hsplit]
  simp

/-- A name without a dot is its own stem. -/
theorem splitName_of_not_mem {name : String} (h : '.' ∉ name.toList) : (splitName name).1 = name := by
  rw [splitName]
  split
  next dot before hdrop =>
    have hhead := List.head?_dropWhile_not (· != '.') name.toList.reverse
    have hmem : dot ∈ name.toList.reverse := (List.dropWhile_suffix _).subset (by rw [hdrop]; simp)
    have hdot : dot = '.' := by simpa [hdrop] using hhead
    exact absurd (hdot ▸ List.mem_reverse.1 hmem) h
  next => rfl

theorem splitName_of_last {name : String} {before after : List Char} (h : name.toList = before ++ '.' :: after)
    (hafter : '.' ∉ after) :
    (splitName name).1 = if before = [] ∨ name.toList = ['.', '.'] then name else String.ofList before := by
  have hreverse : name.toList.reverse = after.reverse ++ '.' :: before.reverse := by simp [h]
  have hpass : ∀ c ∈ after.reverse, (c != '.') = true := by
    intro c hc
    simpa using fun heq : c = '.' => hafter (heq ▸ List.mem_reverse.1 hc)
  have hdrop : name.toList.reverse.dropWhile (· != '.') = '.' :: before.reverse := by
    rw [hreverse, List.dropWhile_append_of_pos hpass]
    simp
  have hdots : (name == "..") = true ↔ name.toList = ['.', '.'] := by
    rw [beq_iff_eq, ← String.toList_inj]
    rfl
  simp only [splitName, hdrop, Bool.or_eq_true, hdots, List.isEmpty_iff, List.reverse_eq_nil_iff, List.reverse_reverse]
  split <;> rfl

theorem splitName_read (name : String) : (splitName (Utf8.read name)).1 = Utf8.read (splitName name).1 := by
  have hread : (Utf8.read name).toList = decode name.toList := String.toList_ofList
  by_cases hdot : '.' ∈ name.toList
  · rcases exists_last_of_mem hdot with ⟨before, after, hname, hafter⟩
    have hdecode : (Utf8.read name).toList = decode before ++ '.' :: decode after := by
      rw [hread, hname, decode_append_cons isSign_dot]
    rw [splitName_of_last hname hafter,
      splitName_of_last hdecode fun hmem => hafter (mem_of_mem_decode hmem isSign_dot), hread]
    have hdots : decode name.toList = ['.', '.'] ↔ name.toList = ['.', '.'] := decode_eq_dots_iff 2
    simp only [decode_eq_nil_iff, hdots]
    split
    · rfl
    · rw [Utf8.read, String.toList_ofList]
  · rw [splitName_of_not_mem hdot, splitName_of_not_mem]
    rw [hread]
    exact fun hmem => hdot (mem_of_mem_decode hmem isSign_dot)

theorem stem?_legible (p : Path) : p.legible.stem? = p.stem?.map Utf8.read := by
  rw [stem?, stem?, fileName?_legible]
  cases p.fileName? with
  | none => rfl
  | some name => exact congrArg some (splitName_read name)

/-! ## Joining -/

theorem getLast?_decode {cs : List Char} : (decode cs).getLast? = some '/' ↔ cs.getLast? = some '/' := by
  constructor
  · intro h
    rcases exists_last_of_mem (mem_of_mem_decode (List.mem_of_getLast? h) isSign_slash) with
      ⟨before, after, rfl, hafter⟩
    rw [decode_append_cons isSign_slash, List.getLast?_append_of_ne_nil _ (by simp)] at h
    cases hdecode : decode after with
    | nil =>
      rw [decode_eq_nil_iff.1 hdecode]
      simp
    | cons c text =>
      -- The last slash would be one of those behind it.
      rw [hdecode, List.getLast?_cons_cons, ← hdecode] at h
      exact absurd (mem_of_mem_decode (List.mem_of_getLast? h) isSign_slash) hafter
  · intro h
    rcases List.getLast?_eq_some_iff.1 h with ⟨before, rfl⟩
    rw [decode_append_cons isSign_slash]
    simp

theorem trunk_legible (p : Path) : p.legible.trunk = decode p.trunk := by
  rw [trunk, trunk, toList_legible]
  by_cases hlast : p.text.toList.getLast? = some '/'
  · rcases List.getLast?_eq_some_iff.1 hlast with ⟨before, hbefore⟩
    rw [if_pos hlast, if_pos (getLast?_decode.2 hlast), hbefore, decode_append_cons isSign_slash]
    simp
  · rw [if_neg hlast, if_neg (mt getLast?_decode.1 hlast)]

theorem legible_join (p : Path) {below : String} (hbelow : below.toList.head? ≠ some '/') :
    (p.join below).legible = p.legible.join (Utf8.read below) := by
  have hread : (Utf8.read below).toList = decode below.toList := String.toList_ofList
  by_cases hempty : p.text = ""
  · have hlegible : p.legible.text = "" := by
      rw [legible, hempty]
      rfl
    rw [join_of_empty hempty, join_of_empty hlegible, legible]
  · have hlegible : p.legible.text ≠ "" := by
      rw [Ne, ← String.toList_eq_nil_iff, toList_legible, decode_eq_nil_iff, String.toList_eq_nil_iff]
      exact hempty
    have hrelative : (Utf8.read below).toList.head? ≠ some '/' := by
      rw [hread]
      exact mt head?_decode.1 hbelow
    have htext : (p.join below).legible.text.toList = (p.legible.join (Utf8.read below)).text.toList := by
      rw [toList_legible, text_join hempty hbelow, text_join hlegible hrelative, decode_append_cons isSign_slash,
        trunk_legible, hread]
    exact congrArg Path.mk (String.toList_inj.1 htext)

/-! ## Names -/

theorem head?_write (text : String) : (Utf8.write text).toList.head? = some '/' ↔ text.toList.head? = some '/' := by
  rw [Utf8.write, String.toList_ofList, ← head?_decode, decode_encode]

theorem isName_write {name : String} (h : IsName name.toList) : IsName (Utf8.write name).toList := by
  have hwrite : (Utf8.write name).toList = encode name.toList := String.toList_ofList
  rw [hwrite]
  refine ⟨fun hslash => h.plain ((mem_encode_iff isSign_slash).1 hslash), ?_, ?_⟩
  · rw [← isIdle_decode, decode_encode]
    exact h.counts
  · intro hdots
    exact h.down ((decode_encode name.toList).symm.trans ((decode_eq_dots_iff 2).2 hdots))

theorem write_inj {text other : String} : Utf8.write text = Utf8.write other ↔ text = other := by
  constructor
  · intro h
    rw [← read_write text, h, read_write]
  · rintro rfl
    rfl

theorem head?_outputName (input : Path) (extension : String) :
    (input.outputName extension).toList.head? ≠ some '/' := by
  have hstem := slash_not_mem_stem input
  rw [outputName, documentName, String.toList_append, String.toList_append]
  cases htext : (input.stem?.getD "").toList with
  | nil => simp
  | cons c cs =>
    have hc : c ≠ '/' := fun heq => hstem (by simp [htext, heq])
    simp [hc]

end Path

namespace NativePath

theorem stemText?_eq (path : NativePath) : path.stemText? = path.legible.stem? := (path.stem?_legible).symm

theorem toPath_output (input : NativePath) (extension : String) (directory : Option NativePath) :
    (input.output extension directory).toPath =
      input.destination (Utf8.write (input.legible.outputName extension)) (directory.map toPath) := by
  change input.destination (Utf8.write (Path.documentName (input.stemText?.getD "") extension)) _ = _
  rw [stemText?_eq, Path.outputName]

/-- The document of an input reads as the document of what the input reads as. -/
theorem legible_output (input : NativePath) (extension : String) (directory : Option NativePath) :
    (input.output extension directory).legible =
      input.legible.output extension (directory.map fun target => target.legible) := by
  have hrelative : (Utf8.write (input.legible.outputName extension)).toList.head? ≠ some '/' :=
    mt (Path.head?_write _).1 (Path.head?_outputName input.legible extension)
  have hdirectory : ((directory.map toPath).getD input.folder).legible =
      (directory.map fun target => target.legible).getD input.legible.folder := by
    cases directory with
    | none => exact (Path.folder_legible input.toPath).symm
    | some target => rfl
  rw [toPath_output, Path.destination_eq_join, Path.legible_join _ hrelative, read_write, hdirectory,
    Path.output_eq_join]

theorem legible_ofPath (path : Path) : (ofPath path).legible = path := congrArg Path.mk (read_write path.text)

theorem stemText?_ofPath (path : Path) : (ofPath path).stemText? = path.stem? := by
  rw [stemText?_eq, legible_ofPath]

/-- Of a path that is a text, the document is what it is for texts. -/
theorem legible_output_ofPath (input : Path) (extension : String) (directory : Option Path) :
    ((ofPath input).output extension (directory.map ofPath)).legible = input.output extension directory := by
  rw [legible_output, legible_ofPath, Option.map_map]
  congr 1
  cases directory with
  | none => rfl
  | some target => exact congrArg some (legible_ofPath target)

end NativePath

end PipelineTree
