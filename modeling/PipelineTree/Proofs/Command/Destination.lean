import PipelineTree.Command.Watch
import PipelineTree.Proofs.Files.Gathering
import PipelineTree.Proofs.Files.Legible

/-!
# Destination — where documents go

A document goes to a directory, or beside its input if none is given, and it is called by the stem of its input,
the marker and an extension.  With the marker in its name it is set apart: it is never resolved as an input, and a
change of it starts no round of a watch.  The name tells how the stem reads, so that inputs share a destination only if
their stems read alike (`NativePath.output_setApart`).  Stems that are texts read alike only if they are the same;
others do if what makes no letter in them is replaced alike (`NativePath.output_shared`).
-/

namespace PipelineTree

namespace Path

variable {p q : Path} {name other : String}

/-! ## Directories -/

theorem components_join (hname : IsName name.toList) :
    (p.join name).components = p.components ++ [.name name] := by
  have hstep : Component.ofStep name.toList = .name name := by simp [Component.ofStep, hname.down]
  rw [components_eq, components_eq p, front_join hname, steps_join p (head?_ne_slash hname.plain),
    hname.splitSegments, hname.stepsOf, List.map_append, List.map_singleton, hstep, List.append_assoc]

theorem join_same_join_iff (hname : IsName name.toList) (hother : IsName other.toList) :
    (p.join name).Same (q.join other) ↔ p.Same q ∧ name = other := by
  rw [Same, Same, components_join hname, components_join hother, List.append_singleton_inj, Component.name.injEq]

/-! ## Names -/

/-- The stem of a name is what stands before its last dot, or all of it, and never empty. -/
theorem splitName_ne_empty (h : name ≠ "") : (splitName name).1 ≠ "" := by
  rw [splitName]
  split
  · split
    next => exact h
    next before hdots hsplit =>
      have hbefore : before ≠ [] := by
        rintro rfl
        simp at hsplit
      simpa using hbefore
  · exact h

theorem stem?_ne_empty (p : Path) : p.stem? ≠ some "" := by
  cases hname : p.fileName? with
  | none => simp [stem?, hname]
  | some name =>
    have hmem : name.toList ∈ p.steps := List.mem_of_getLast? (fileName?_eq_some_iff.1 hname).1
    have hcounts : isIdle name.toList = false := by simpa [stepsOf] using List.of_mem_filter hmem
    have hne : name ≠ "" := by
      rintro rfl
      exact absurd hcounts (by decide)
    simpa [stem?, hname] using splitName_ne_empty hne

theorem outputName_eq_iff {extension : String} :
    p.outputName extension = q.outputName extension ↔ p.stem? = q.stem? := by
  have hp := stem?_ne_empty p
  have hq := stem?_ne_empty q
  rw [outputName, outputName, documentName, documentName, String.append_left_inj, String.append_left_inj]
  cases hpstem : p.stem? with
  | none =>
    cases hqstem : q.stem? with
    | none => simp
    | some t => simpa [hqstem, eq_comm] using hq
  | some s =>
    cases hqstem : q.stem? with
    | none => simpa [hpstem] using hp
    | some t => simp

/-! ## Destinations -/

theorem destination_same_iff (hname : IsName name.toList) (hother : IsName other.toList) (directory : Option Path) :
    (p.destination name directory).Same (q.destination other directory) ↔
      name = other ∧ (directory = none → p.folder.Same q.folder) := by
  rw [destination_eq_join, destination_eq_join, join_same_join_iff hname hother, and_comm]
  cases directory with
  | none => simp
  | some target => simp [Same]

end Path

namespace NativePath

variable {extension : String} (input : NativePath) (directory : Option NativePath)

theorem output_same_iff (h : '/' ∉ extension.toList) (other : NativePath) :
    (input.output extension directory).Same (other.output extension directory).toPath ↔
      input.stemText? = other.stemText? ∧ (directory = none → input.folder.Same other.folder) := by
  rw [toPath_output, toPath_output, Path.destination_same_iff (Path.isName_write (Path.isName_outputName h))
    (Path.isName_write (Path.isName_outputName h)), Path.write_inj, Path.outputName_eq_iff, stemText?_eq, stemText?_eq,
    Option.map_eq_none_iff]

/-- Documents of inputs that are texts go to the same place only if the stems are the same. -/
theorem output_ofPath_same_iff (h : '/' ∉ extension.toList) (p q : Path) :
    ((ofPath p).output extension directory).Same ((ofPath q).output extension directory).toPath ↔
      p.stem? = q.stem? ∧ (directory = none → (ofPath p).folder.Same (ofPath q).folder) := by
  rw [output_same_iff (ofPath p) directory h, stemText?_ofPath, stemText?_ofPath]

end NativePath

end PipelineTree
