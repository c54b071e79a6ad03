import DetGuest.Lib.Utf8
import DetGuest.Sdk.State
import DetGuest.Wire.Codec

/-!
# Clipped texts

The encoder clips the details of a violation and the message of a log line at a number of bytes.
The texts are UTF-8, and a clip in the middle of a character leaves bytes that are not.
-/

namespace Sdk

open Wire

/-- The text of an event whose text may be clipped. -/
def textOf : EventPayload → Option Bytes
  | .assertViolation _ _ details => some details
  | .logLine _ _ msg => some msg
  | _ => none

/-- The greatest length of the text of an event. -/
def textCap : EventPayload → Nat
  | .assertViolation _ _ _ => maxDetails
  | _ => maxLogMsg

/-- The record of an event is decoded to a text that is UTF-8 again, a prefix of the text of the
event. -/
def KeepsUtf8 (e : Emission) : Prop :=
  ∀ seq vnanos original, textOf e.ev = some original →
    ∃ header ev text, decodeEvent (eventBytes seq vnanos e.extraFlags e.ev) = .ok (header, ev) ∧
      textOf ev = some text ∧ Utf8.isValid text = true ∧ text <+: original

/-- The text is not longer than `cap`, or a character starts at that byte. -/
def OnBoundary (cap : Nat) (text : Bytes) : Prop :=
  ∀ b, text[cap]? = some b → Utf8.isCont b = false

theorem onBoundary_of_length_le {cap : Nat} {text : Bytes} (h : text.length ≤ cap) :
  OnBoundary cap text
  := by
  intro b hb
  rw [List.getElem?_eq_none h] at hb
  cases hb

/-- The text of a clipped event is the front of its text. -/
theorem textOf_clip {ev : EventPayload} {text : Bytes} (h : textOf ev = some text) :
  textOf ev.clip = some (text.take (textCap ev))
  := by
  cases ev with
  | assertViolation nameId violationCount details =>
      cases h
      rfl
  | logLine stream level msg =>
      cases h
      rfl
  | _ => cases h

theorem encodable_of_textOf {ev : EventPayload} {text : Bytes} (h : textOf ev = some text) :
  ev.Encodable
  := by
  cases ev with
  | assertViolation nameId violationCount details => trivial
  | logLine stream level msg => trivial
  | _ => cases h

/-- An event keeps its text UTF-8 exactly when the cap is a boundary of the text. -/
theorem keepsUtf8_iff {e : Emission} {text : Bytes} (htext : textOf e.ev = some text)
    (hvalid : Utf8.isValid text = true) :
  KeepsUtf8 e ↔ OnBoundary (textCap e.ev) text
  := by
  have hdecode : ∀ seq vnanos, decodeEvent (eventBytes seq vnanos e.extraFlags e.ev)
      = .ok (eventHeader seq vnanos e.extraFlags e.ev, e.ev.clip) :=
    fun seq vnanos => decodeEvent_eventBytes (encodable_of_textOf htext)
  rw [OnBoundary, ← Utf8.isValid_take_iff hvalid]
  constructor
  · intro hkeeps
    obtain ⟨header, ev, clipped, hok, hclipped, hutf8, _⟩ := hkeeps 0 0 text htext
    rw [hdecode] at hok
    obtain ⟨_, rfl⟩ := Prod.mk.inj (Res.ok.inj hok)
    rw [textOf_clip htext] at hclipped
    obtain rfl := Option.some.inj hclipped
    exact hutf8
  · intro hutf8 seq vnanos original horiginal
    rw [htext] at horiginal
    obtain rfl := Option.some.inj horiginal
    exact ⟨_, _, _, hdecode seq vnanos, textOf_clip htext, hutf8, List.take_prefix _ _⟩

theorem keepsUtf8_of_none {e : Emission} (h : textOf e.ev = none) :
  KeepsUtf8 e
  := by
  intro seq vnanos original horiginal
  rw [h] at horiginal
  cases horiginal

/-- A failed assertion reports its details or the summary. -/
theorem assertFailed_texts (s : SdkState) (nameId : UInt32) (details : Bytes) :
  ∀ e ∈ (s.assertFailed nameId details).2, ∃ n text,
    e.ev = .assertViolation nameId n text ∧ (text = details ∨ text = suppressedDetails)
  := by
  simp only [SdkState.assertFailed]
  split
  · split
    · next counts _ text htext =>
      intro e he
      rw [List.mem_singleton.mp he]
      refine ⟨_, text, rfl, ?_⟩
      rw [violationDetails] at htext
      split at htext
      · split at htext
        · cases htext
        · exact .inr (Option.some.inj htext).symm
      · exact .inl (Option.some.inj htext).symm
    · intro e he
      cases he
  · intro e he
    cases he

/-- The events of an assertion announce its name, or report its details or the summary. -/
theorem assertAlways_texts (s : SdkState) (cond : Bool) (name details : Bytes) :
  ∀ e ∈ (s.assertAlways cond name details).2, textOf e.ev = none ∨
    ∃ nameId n text, e.ev = .assertViolation nameId n text ∧
      (text = details ∨ text = suppressedDetails)
  := by
  have hname : ∀ e ∈ (s.internName name 0).2.1, textOf e.ev = none := by
    rcases s.internName_cases name 0 with h | ⟨id, h, _⟩ | ⟨s', h, _⟩
    · rw [h]
      intro e he
      cases he
    · rw [h]
      intro e he
      cases he
    · rw [h]
      intro e he
      rw [List.mem_singleton.mp he]
      rfl
  rcases hintern : s.internName name 0 with ⟨s', out, _ | nameId⟩
  · rw [hintern] at hname
    simp only [SdkState.assertAlways, hintern]
    intro e he
    exact .inl (hname e he)
  · rw [hintern] at hname
    simp only [SdkState.assertAlways, hintern]
    cases cond with
    | true =>
        intro e he
        exact .inl (hname e he)
    | false =>
        intro e he
        rcases List.mem_append.mp he with he | he
        · exact .inl (hname e he)
        · obtain ⟨n, text, hev, htext⟩ := assertFailed_texts s' nameId details e he
          exact .inr ⟨nameId, n, text, hev, htext⟩

/-- The texts of log lines and of assertions stay UTF-8 exactly when the caps are boundaries of
them: they are not longer, or a character starts at the cap. -/
theorem texts_keep_utf8_iff {msg details : Bytes} (hmsg : Utf8.isValid msg = true)
    (hdetails : Utf8.isValid details = true) :
  ((∀ (s : SdkState) level, ∀ e ∈ (s.logLine level msg).2, KeepsUtf8 e) ∧
      ∀ (s : SdkState) cond name, ∀ e ∈ (s.assertAlways cond name details).2, KeepsUtf8 e)
    ↔ OnBoundary maxLogMsg msg ∧ OnBoundary maxDetails details
  := by
  constructor
  · rintro ⟨hlog, hassert⟩
    constructor
    · exact (keepsUtf8_iff rfl hmsg).mp (hlog .new .info _ List.mem_cons_self)
    · have hfirst : (SdkState.new.assertAlways false [] details).2
          = [⟨0, .nameIntern 1 [], .critical⟩, ⟨0, .assertViolation 1 1 details, .critical⟩] := rfl
      have hmem : ⟨0, .assertViolation 1 1 details, .critical⟩
          ∈ (SdkState.new.assertAlways false [] details).2 := by
        rw [hfirst]
        simp
      exact (keepsUtf8_iff rfl hdetails).mp (hassert .new false [] _ hmem)
  · rintro ⟨hlog, hassert⟩
    constructor
    · intro s level e he
      rw [List.mem_singleton.mp he]
      exact (keepsUtf8_iff rfl hmsg).mpr hlog
    · intro s cond name e he
      rcases assertAlways_texts s cond name details e he with hnone | ⟨nameId, n, text, hev, htext⟩
      · exact keepsUtf8_of_none hnone
      · have hof : textOf e.ev = some text := by
          rw [hev]
          rfl
        have hcap : textCap e.ev = maxDetails := by
          rw [hev]
          rfl
        rcases htext with rfl | rfl
        · rw [keepsUtf8_iff hof hdetails, hcap]
          exact hassert
        · rw [keepsUtf8_iff hof (by decide +kernel)]
          apply onBoundary_of_length_le
          rw [hcap]
          decide +kernel

/-- Two short texts. -/
theorem texts_keep_utf8_short :
  ((∀ (s : SdkState) level, ∀ e ∈ (s.logLine level [0xC3, 0xA9]).2, KeepsUtf8 e) ∧
      ∀ (s : SdkState) cond name, ∀ e ∈ (s.assertAlways cond name [0x61]).2, KeepsUtf8 e)
    ↔ OnBoundary maxLogMsg [0xC3, 0xA9] ∧ OnBoundary maxDetails [0x61]
  := texts_keep_utf8_iff (by decide) (by decide)

/-- A message of 1023 letters and a character of two bytes is clipped inside of the character. -/
theorem not_keepsUtf8_straddling :
  ¬ ∀ msg : Bytes, Utf8.isValid msg = true →
    ∀ (s : SdkState) level, ∀ e ∈ (s.logLine level msg).2, KeepsUtf8 e
  := by
  intro h
  have hvalid : Utf8.isValid (List.replicate 1023 (0x61 : UInt8) ++ [0xC3, 0xA9]) = true := by
    decide +kernel
  have hlog := (keepsUtf8_iff rfl hvalid).mp (h _ hvalid .new .info _ List.mem_cons_self)
  exact absurd (hlog 0xA9 (by decide +kernel)) (by decide)

end Sdk
