import Mathlib.Data.List.Basic
import PipelineTree.Text.Utf8

/-!
# Decoding — what reading bytes as text keeps

A sign is a letter of one byte, such as a slash or a dot.  No letter that has begun goes on with a sign, so a sign ends
what stands in front of it, and it is read as itself whatever the bytes around it are: bytes are read as text piece by
piece between signs (`decode_append_cons`), and a sign in the text comes from that very sign (`mem_of_mem_decode`).  The
bytes of a text read as the text.
-/

namespace PipelineTree

namespace Utf8

/-- A letter of one byte. -/
def IsSign (c : Char) : Prop := 0 < c.toNat ∧ c.toNat < 0x80

instance (c : Char) : Decidable (IsSign c) := inferInstanceAs (Decidable (_ ∧ _))

variable {a : Char}

/-! ## One byte -/

theorem Begun.next?_eq_some_iff {begun next : Begun} {byte : Nat} :
    begun.next? byte = some next ↔ 0x80 ≤ byte ∧ byte < 0xC0 ∧ mayBegin next.number next.due ∧
      next = ⟨begun.number * 64 + (byte - 0x80), begun.due - 1⟩ := by
  simp only [Begun.next?, Option.ite_none_right_eq_some, Bool.and_eq_true, decide_eq_true_eq, Option.some.injEq]
  constructor
  · rintro ⟨⟨⟨hleast, hmost⟩, hmay⟩, rfl⟩
    exact ⟨hleast, hmost, hmay, rfl⟩
  · rintro ⟨hleast, hmost, hmay, rfl⟩
    exact ⟨⟨⟨hleast, hmost⟩, hmay⟩, rfl⟩

theorem Begun.next?_sign (begun : Begun) (h : IsSign a) : begun.next? a.toNat = none := by
  rw [Option.eq_none_iff_forall_ne_some]
  intro next hnext
  have hleast := (next?_eq_some_iff.1 hnext).1
  have hsign := h.2
  omega

theorem first_sign (h : IsSign a) : first a.toNat = ([a], none) := by
  simp [first, h.2]

theorem feed_begun_sign (begun : Begun) (h : IsSign a) : feed (some begun) a.toNat = ([replacement, a], none) := by
  rw [feed, begun.next?_sign h, first_sign h]

theorem IsSign.ne_replacement (h : IsSign a) : a ≠ replacement := by
  rintro rfl
  exact absurd h (by decide)

theorem toNat_ofNat {number : Nat} (h : number.isValidChar) : (Char.ofNat number).toNat = number := by
  rw [Char.ofNat, dif_pos h]
  rfl

/-- A sign is no letter of several bytes. -/
theorem IsSign.ne_ofNat (h : IsSign a) {number : Nat} (hnumber : 0x80 ≤ number) : a ≠ Char.ofNat number := by
  rintro rfl
  rcases h with ⟨hpositive, hsmall⟩
  by_cases hvalid : number.isValidChar
  · rw [toNat_ofNat hvalid] at hsmall
    omega
  · simp [Char.ofNat, hvalid] at hpositive

/-- A first byte is a letter, begins one, or is replaced. -/
theorem first_cases (byte : Nat) : first byte = ([Char.ofNat byte], none) ∨ first byte = ([replacement], none) ∨
    ∃ begun, first byte = ([], some begun) := by
  grind [first]

theorem mem_first {c : Char} (h : a ∈ (first c.toNat).1) (ha : IsSign a) : a = c := by
  rcases first_cases c.toNat with hletter | hreplaced | ⟨begun, hbegun⟩
  · simpa [hletter] using h
  · rw [hreplaced, List.mem_singleton] at h
    exact absurd h ha.ne_replacement
  · simp [hbegun] at h

/-- A sign is written for that sign only. -/
theorem mem_feed {begun : Option Begun} {c : Char} (h : a ∈ (feed begun c.toNat).1) (ha : IsSign a) : a = c := by
  cases begun with
  | none => exact mem_first h ha
  | some begun =>
    rw [feed] at h
    split at h
    next number hnext =>
      have hnumber : 0x80 ≤ number := by simpa [mayBegin] using (Begun.next?_eq_some_iff.1 hnext).2.2.1
      exact absurd (List.mem_singleton.1 h) (ha.ne_ofNat hnumber)
    next => simp at h
    next =>
      rcases List.mem_cons.1 h with hreplaced | hfirst
      · exact absurd hreplaced ha.ne_replacement
      · exact mem_first hfirst ha

/-! ## All bytes -/

@[simp] theorem decode_nil : decode [] = [] := rfl

theorem decodeFrom_cons (begun : Option Begun) (c : Char) (cs : List Char) :
    decodeFrom begun (c :: cs) = (feed begun c.toNat).1 ++ decodeFrom (feed begun c.toNat).2 cs := by
  cases begun <;> rfl

theorem decodeFrom_sign (begun : Option Begun) (h : IsSign a) (bytes : List Char) :
    decodeFrom begun (a :: bytes) = decodeFrom begun [] ++ a :: decode bytes := by
  rw [decodeFrom_cons]
  cases begun with
  | none =>
    rw [feed, first_sign h]
    rfl
  | some begun =>
    rw [feed_begun_sign begun h]
    rfl

theorem decodeFrom_append_cons (begun : Option Begun) (h : IsSign a) (before after : List Char) :
    decodeFrom begun (before ++ a :: after) = decodeFrom begun before ++ a :: decode after := by
  induction before generalizing begun with
  | nil => exact decodeFrom_sign begun h after
  | cons c cs ih => rw [List.cons_append, decodeFrom_cons, decodeFrom_cons, ih, List.append_assoc]

/-- Bytes are read piece by piece between signs. -/
theorem decode_append_cons (h : IsSign a) (before after : List Char) :
    decode (before ++ a :: after) = decode before ++ a :: decode after :=
  decodeFrom_append_cons none h before after

theorem decode_cons (h : IsSign a) (bytes : List Char) : decode (a :: bytes) = a :: decode bytes :=
  decode_append_cons h [] bytes

theorem mem_of_mem_decodeFrom {begun : Option Begun} {bytes : List Char} (h : a ∈ decodeFrom begun bytes)
    (ha : IsSign a) : a ∈ bytes := by
  induction bytes generalizing begun with
  | nil =>
    cases begun with
    | none => simp [decodeFrom] at h
    | some begun =>
      exact absurd (List.mem_singleton.1 h) ha.ne_replacement
  | cons c cs ih =>
    rw [decodeFrom_cons, List.mem_append] at h
    rcases h with hfed | hlater
    · exact List.mem_cons.2 (.inl (mem_feed hfed ha))
    · exact List.mem_cons_of_mem c (ih hlater)

/-- A sign in the text was there among the bytes. -/
theorem mem_of_mem_decode {bytes : List Char} (h : a ∈ decode bytes) (ha : IsSign a) : a ∈ bytes :=
  mem_of_mem_decodeFrom h ha

/-- A letter that has begun is written or replaced in the end. -/
theorem decodeFrom_begun_ne_nil (begun : Begun) (bytes : List Char) : decodeFrom (some begun) bytes ≠ [] := by
  induction bytes generalizing begun with
  | nil => simp [decodeFrom]
  | cons c cs ih =>
    rw [decodeFrom_cons, feed]
    split
    · simp
    · simpa using ih _
    · simp

theorem decode_eq_nil_iff {bytes : List Char} : decode bytes = [] ↔ bytes = [] := by
  constructor
  · intro h
    cases bytes with
    | nil => rfl
    | cons c cs =>
      rw [decode, decodeFrom_cons, feed, List.append_eq_nil_iff] at h
      rcases first_cases c.toNat with hletter | hreplaced | ⟨begun, hbegun⟩
      · simp [hletter] at h
      · simp [hreplaced] at h
      · rw [hbegun] at h
        exact absurd h.2 (decodeFrom_begun_ne_nil begun cs)
  · rintro rfl
    rfl

/-- The text begins with a sign if the bytes do. -/
theorem decode_eq_cons_iff {bytes text : List Char} (ha : IsSign a) :
    decode bytes = a :: text ↔ ∃ rest, bytes = a :: rest ∧ decode rest = text := by
  constructor
  · intro h
    have hmem : a ∈ bytes := mem_of_mem_decode (by simp [h]) ha
    rcases List.eq_append_cons_of_mem hmem with ⟨before, after, rfl, hnot⟩
    rw [decode_append_cons ha] at h
    cases hbefore : decode before with
    | nil =>
      rw [hbefore, List.nil_append, List.cons.injEq] at h
      exact ⟨after, by rw [decode_eq_nil_iff.1 hbefore, List.nil_append], h.2⟩
    | cons b bs =>
      rw [hbefore, List.cons_append, List.cons.injEq] at h
      exact absurd (mem_of_mem_decode (by simp [hbefore, h.1]) ha) hnot
  · rintro ⟨rest, rfl, rfl⟩
    exact decode_cons ha rest

/-- Bytes that read as signs are these signs. -/
theorem decode_eq_iff {bytes text : List Char} (h : ∀ c ∈ text, IsSign c) : decode bytes = text ↔ bytes = text := by
  induction text generalizing bytes with
  | nil => exact decode_eq_nil_iff
  | cons a text ih =>
    rw [decode_eq_cons_iff (h a (by simp))]
    constructor
    · rintro ⟨rest, rfl, hrest⟩
      rw [(ih fun c hc => h c (List.mem_cons_of_mem a hc)).1 hrest]
    · rintro rfl
      exact ⟨text, rfl, (ih fun c hc => h c (List.mem_cons_of_mem a hc)).2 rfl⟩

/-! ## Texts -/

/-- The letter of a byte that goes on with a number. -/
def tail (number : Nat) : Char := Char.ofUInt8 (UInt8.ofNat (number % 64 + 128))

theorem toNat_ofUInt8 {byte : Nat} (h : byte < 256) : (Char.ofUInt8 (UInt8.ofNat byte)).toNat = byte :=
  UInt8.toNat_ofNat_of_lt' h

theorem toNat_tail (number : Nat) : (tail number).toNat = number % 64 + 128 := toNat_ofUInt8 (by omega)

theorem Begun.next?_tail {number due : Nat} (h : mayBegin number due) :
    Begun.next? ⟨number / 64, due + 1⟩ (tail number).toNat = some ⟨number, due⟩ := by
  have hnumber : number / 64 * 64 + (number % 64 + 128 - 0x80) = number := by omega
  rw [next?_eq_some_iff, toNat_tail]
  refine ⟨by omega, by omega, h, ?_⟩
  rw [hnumber, Nat.add_sub_cancel]

theorem decodeFrom_tail {number due : Nat} (h : mayBegin number (due + 1)) (bytes : List Char) :
    decodeFrom (some ⟨number / 64, due + 2⟩) (tail number :: bytes) = decodeFrom (some ⟨number, due + 1⟩) bytes := by
  rw [decodeFrom_cons, feed, Begun.next?_tail h]
  rfl

theorem decodeFrom_lastTail {number : Nat} (h : 0x80 ≤ number) (bytes : List Char) :
    decodeFrom (some ⟨number / 64, 1⟩) (tail number :: bytes) = Char.ofNat number :: decode bytes := by
  rw [decodeFrom_cons, feed, Begun.next?_tail (by simpa [mayBegin] using h)]
  rfl

theorem decode_first {byte : Nat} {begun : Begun} (h : byte < 256) (hfirst : first byte = ([], some begun))
    (bytes : List Char) :
    decode (Char.ofUInt8 (UInt8.ofNat byte) :: bytes) = decodeFrom (some begun) bytes := by
  rw [decode, decodeFrom_cons, feed, toNat_ofUInt8 h, hfirst]
  rfl

/-- The bytes of a letter read as the letter. -/
theorem decode_letter (c : Char) (bytes : List Char) :
    decode ((String.utf8EncodeChar c).map Char.ofUInt8 ++ bytes) = c :: decode bytes := by
  have hvalid : c.toNat < 0xD800 ∨ 0xDFFF < c.toNat ∧ c.toNat < 0x110000 := c.valid
  have hnumber : c.val.toNat = c.toNat := rfl
  simp only [String.utf8EncodeChar, hnumber]
  split
  next hone =>
    have hletter : first c.toNat = ([c], none) := by
      simp [first, show c.toNat < 0x80 by omega]
    rw [List.map_singleton, List.singleton_append, decode, decodeFrom_cons, feed, toNat_ofUInt8 (by omega), hletter]
    rfl
  next hone =>
    split
    next htwo =>
      have hfirst : first (c.toNat / 64 % 32 + 192) = ([], some ⟨c.toNat / 64, 1⟩) := by grind [first]
      change decode (Char.ofUInt8 _ :: tail c.toNat :: bytes) = _
      rw [decode_first (by omega) hfirst, decodeFrom_lastTail (by omega), Char.ofNat_toNat]
    next htwo =>
      have hhalf : c.toNat / 4096 = c.toNat / 64 / 64 := by omega
      split
      next hthree =>
        have hfirst : first (c.toNat / 4096 % 16 + 224) = ([], some ⟨c.toNat / 64 / 64, 2⟩) := by grind [first]
        change decode (Char.ofUInt8 _ :: tail (c.toNat / 64) :: tail c.toNat :: bytes) = _
        rw [decode_first (by omega) hfirst, decodeFrom_tail (by simp [mayBegin]; omega),
          decodeFrom_lastTail (by omega), Char.ofNat_toNat]
      next hthree =>
        have hfirst : first (c.toNat / 262144 % 8 + 240) = ([], some ⟨c.toNat / 4096 / 64, 3⟩) := by grind [first]
        change decode (Char.ofUInt8 _ :: tail (c.toNat / 4096) :: tail (c.toNat / 64) :: tail c.toNat :: bytes) = _
        rw [decode_first (by omega) hfirst, decodeFrom_tail (by simp [mayBegin]; omega), hhalf,
          decodeFrom_tail (by simp [mayBegin]; omega), decodeFrom_lastTail (by omega), Char.ofNat_toNat]

/-- The bytes of a text read as the text. -/
theorem decode_encode (text : List Char) : decode (encode text) = text := by
  induction text with
  | nil => rfl
  | cons c cs ih => rw [encode, List.flatMap_cons, decode_letter, ← encode, ih]

theorem read_write (text : String) : read (write text) = text := by
  rw [read, write, String.toList_ofList, decode_encode, String.ofList_toList]

/-- A sign is written as itself, and nothing else is written with it. -/
theorem mem_encode_iff (ha : IsSign a) {text : List Char} : a ∈ encode text ↔ a ∈ text := by
  constructor
  · intro h
    rw [← decode_encode text]
    rcases List.eq_append_cons_of_mem h with ⟨before, after, hencode, -⟩
    rw [hencode, decode_append_cons ha]
    simp
  · intro h
    exact mem_of_mem_decode (by rwa [decode_encode]) ha

end Utf8

end PipelineTree
