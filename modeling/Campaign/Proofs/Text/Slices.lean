import Campaign.Proofs.Layout.Tiling

/-!
# Slices of a text

A slice is cut out of a text by a span of bytes. The span has to start no later than it stops, and
both its ends have to be boundaries between characters in the UTF-8 form of the text, which is where
the text can be taken from a byte on.
-/

namespace Campaign

open Text

namespace Text

/-- A byte position between two characters in the UTF-8 form of a text, or at one of its ends. -/
def IsBoundary (text : List Char) (n : Nat) : Prop :=
  (String.Pos.Raw.mk n).IsValid (String.ofList text)

theorem utf8ByteSize_ofList (text : List Char) :
    (String.ofList text).utf8ByteSize = byteLength text := by
  induction text with
  | nil => rfl
  | cons c rest ih =>
      rw [String.ofList_cons, String.utf8ByteSize_append, String.utf8ByteSize_singleton, ih,
        byteLength_cons]

/-- A boundary is the length in bytes of a first part. -/
theorem isBoundary_iff {text : List Char} {n : Nat} :
    IsBoundary text n ↔ ∃ before after, text = before ++ after ∧ byteLength before = n := by
  rw [IsBoundary, String.Pos.Raw.isValid_iff_exists_append]
  constructor
  · rintro ⟨first, second, htext, hn⟩
    refine ⟨first.toList, second.toList, ?_, ?_⟩
    · rw [← String.toList_append, ← htext, String.toList_ofList]
    · rw [← utf8ByteSize_ofList, String.ofList_toList, ← String.byteIdx_rawEndPos, ← hn]
  · rintro ⟨before, after, rfl, rfl⟩
    refine ⟨String.ofList before, String.ofList after, String.ofList_append, ?_⟩
    rw [← utf8ByteSize_ofList]
    rfl

/-- A text can be taken from a byte on where that is a boundary. -/
theorem isBoundary_iff_fromByte? {text : List Char} {n : Nat} :
    IsBoundary text n ↔ ∃ rest, fromByte? text n = some rest := by
  rw [isBoundary_iff]
  constructor
  · rintro ⟨before, after, htext, hbefore⟩
    exact ⟨after, fromByte?_eq_some_iff.mpr ⟨before, htext, hbefore⟩⟩
  · rintro ⟨rest, hfrom⟩
    obtain ⟨before, htext, hbefore⟩ := fromByte?_eq_some_iff.mp hfrom
    exact ⟨before, rest, htext, hbefore⟩

theorem eq_nil_of_byteLength {text : List Char} (h : byteLength text = 0) : text = [] := by
  cases text with
  | nil => rfl
  | cons c rest =>
      have hpos := c.utf8Size_pos
      rw [byteLength_cons] at h
      omega

/-- The UTF-8 form of a text. -/
def bytes (text : List Char) : List UInt8 := text.flatMap String.utf8EncodeChar

theorem length_bytes (text : List Char) : (bytes text).length = byteLength text := by
  induction text with
  | nil => rfl
  | cons c rest ih =>
      rw [bytes, List.flatMap_cons, List.length_append, String.length_utf8EncodeChar]
      exact congrArg (c.utf8Size + ·) ih

theorem utf8EncodeChar_of_utf8Size {c : Char} (h : c.utf8Size = 1) :
    String.utf8EncodeChar c = [UInt8.ofNat c.toNat] := by
  have hle : c.val.toNat ≤ 127 := Char.utf8Size_eq_one_iff.mp h
  exact if_pos hle

/-- A character of one byte is found at its position as that byte. -/
theorem bytes_getElem? {text : List Char} {i : Nat} {c : Char} (h : charAt? text i = some c)
    (hsize : c.utf8Size = 1) : (bytes text)[i]? = some (UInt8.ofNat c.toNat) := by
  obtain ⟨rest, hfrom⟩ := charAt?_eq_some_iff.mp h
  obtain ⟨before, rfl, rfl⟩ := fromByte?_eq_some_iff.mp hfrom
  rw [bytes, List.flatMap_append, ← bytes, ← length_bytes,
    List.getElem?_append_right (Nat.le_refl _), Nat.sub_self, List.flatMap_cons,
    utf8EncodeChar_of_utf8Size hsize]
  rfl

/-- Of two first parts of a text the one with fewer bytes begins the other. -/
theorem exists_between {first second rest after : List Char}
    (happend : first ++ rest = second ++ after) (hle : byteLength first ≤ byteLength second) :
    ∃ part, second = first ++ part ∧ rest = part ++ after := by
  rcases List.append_eq_append_iff.mp happend with h | ⟨part, hfirst, hafter⟩
  · exact h
  · rw [hfirst, byteLength_append] at hle
    have hzero : byteLength part = 0 := by omega
    obtain rfl := eq_nil_of_byteLength hzero
    rw [List.append_nil] at hfirst
    exact ⟨[], by rw [hfirst, List.append_nil], hafter.symm⟩

end Text

/-- A text can be cut at both ends of a span, which stand in order. -/
structure Span.Within (s : Span) (text : List Char) : Prop where
  start_le_stop : s.start ≤ s.stop
  stop_le : s.stop ≤ byteLength text
  start_boundary : IsBoundary text s.start
  stop_boundary : IsBoundary text s.stop

/-- The part of a text in a span; nothing when the span stops before it starts or when one of its
ends is past the text or inside a character. -/
def slice? (text : List Char) (s : Span) : Option (List Char) := do
  let rest ← fromByte? text s.start
  let after ← fromByte? text s.stop
  if s.start ≤ s.stop then some (rest.take (rest.length - after.length)) else none

section Slice

variable {text part : List Char} {s : Span}

/-- The text goes on behind a span with what stands behind the part that it covers. -/
theorem Span.Covers.fromByte?_stop (h : s.Covers text part) : ∃ after,
    fromByte? text s.start = some (part ++ after) ∧ fromByte? text s.stop = some after := by
  obtain ⟨after, hfrom, hstop⟩ := h
  exact ⟨after, hfrom, hstop ▸ fromByte?_add hfrom⟩

/-- A slice is the part that its span covers. -/
theorem slice?_eq_some_iff : slice? text s = some part ↔ s.Covers text part := by
  constructor
  · intro h
    obtain ⟨rest, hrest, hslice⟩ := Option.bind_eq_some_iff.mp h
    obtain ⟨after, hafter, hcut⟩ := Option.bind_eq_some_iff.mp hslice
    split at hcut
    next hle =>
      obtain ⟨first, rfl, hfirst⟩ := fromByte?_eq_some_iff.mp hrest
      obtain ⟨second, happend, hsecond⟩ := fromByte?_eq_some_iff.mp hafter
      rw [← hfirst, ← hsecond] at hle
      obtain ⟨between, rfl, rfl⟩ := exists_between happend hle
      rw [byteLength_append, hfirst] at hsecond
      have hpart : between = part := by simpa using hcut
      exact ⟨after, hpart ▸ hrest, hpart ▸ hsecond.symm⟩
    next => cases hcut
  · intro h
    obtain ⟨after, hstart, hstop⟩ := h.fromByte?_stop
    have hle : s.start ≤ s.stop := by
      rw [h.choose_spec.2]
      exact Nat.le_add_right _ _
    rw [slice?, hstart, hstop]
    simp [hle]

/-- A span covers one part only. -/
theorem Span.Covers.unique {other : List Char} (h : s.Covers text part)
    (hother : s.Covers text other) : part = other :=
  Option.some.inj ((slice?_eq_some_iff.mpr h).symm.trans (slice?_eq_some_iff.mpr hother))

/-- The spans that can be cut out of a text are those that cover a part of it. -/
theorem Span.within_iff : s.Within text ↔ ∃ part, s.Covers text part := by
  constructor
  · rintro ⟨hle, _, hstart, hstop⟩
    obtain ⟨first, rest, rfl, hfirst⟩ := isBoundary_iff.mp hstart
    obtain ⟨second, after, happend, hsecond⟩ := isBoundary_iff.mp hstop
    rw [← hfirst, ← hsecond] at hle
    obtain ⟨part, rfl, rfl⟩ := exists_between happend hle
    refine ⟨part, after, fromByte?_eq_some_iff.mpr ⟨first, rfl, hfirst⟩, ?_⟩
    rw [← hsecond, byteLength_append, hfirst]
  · rintro ⟨part, h⟩
    obtain ⟨after, hfrom, hstop⟩ := h.fromByte?_stop
    obtain ⟨before, rfl, hbefore⟩ := fromByte?_eq_some_iff.mp hfrom
    have hlength := h.choose_spec.2
    refine ⟨by omega, ?_, isBoundary_iff_fromByte?.mpr ⟨_, hfrom⟩,
      isBoundary_iff_fromByte?.mpr ⟨_, hstop⟩⟩
    rw [byteLength_append, byteLength_append]
    omega

theorem Span.Covers.within (h : s.Covers text part) : s.Within text :=
  Span.within_iff.mpr ⟨part, h⟩

/-- A slice is cut out exactly where it can be. -/
theorem slice?_isSome_iff : (slice? text s).isSome ↔ s.Within text := by
  rw [Option.isSome_iff_exists, Span.within_iff]
  exact exists_congr fun _ => slice?_eq_some_iff

theorem forall_within {spans : List Span} {parts : List (List Char)}
    (h : List.Forall₂ (Span.Covers · text ·) spans parts) : ∀ s ∈ spans, s.Within text := by
  induction h with
  | nil => exact List.forall_mem_nil _
  | cons hcovers _ ih => exact List.forall_mem_cons.mpr ⟨hcovers.within, ih⟩

theorem mapM_slice? {spans : List Span} {parts : List (List Char)}
    (h : List.Forall₂ (Span.Covers · text ·) spans parts) :
    spans.mapM (slice? text) = some parts := by
  induction h with
  | nil => rfl
  | cons hcovers _ ih =>
      rw [List.mapM_cons, slice?_eq_some_iff.mpr hcovers, ih]
      rfl

end Slice

end Campaign
