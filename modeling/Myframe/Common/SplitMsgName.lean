import Myframe.Common

/-! # The positions of the tokens

`SplitMsgName` hands out views into the name: a position and a length, both counted in `size_t`.
-/
namespace Myframe
namespace Common
set_option autoImplicit false

structure StdString where
  chars : List Char
  fits : chars.length < 2 ^ 64

structure StringView where
  pos : UInt64
  size : UInt64
  deriving DecidableEq, Repr

namespace StdString

def size (name : StdString) : UInt64 := UInt64.ofNat name.chars.length

/-- The characters that a view of the string shows. -/
def text (name : StdString) (v : StringView) : List Char :=
  (name.chars.drop v.pos.toNat).take v.size.toNat

def InBounds (name : StdString) (v : StringView) : Prop :=
  v.pos.toNat + v.size.toNat ≤ name.chars.length

end StdString

/-- The loop over the characters of the name, of which `i` have been read. -/
def splitMsgNameLoop (nameSz : UInt64) : List Char → UInt64 → UInt64 → List StringView
  | [], _, _ => []
  | c :: cs, i, startPos =>
    if c = '.' then
      ⟨startPos, i - startPos⟩ ::
        ((if i = nameSz - 1 then [⟨i + 1, i - (i + 1) + 1⟩] else []) ++
          splitMsgNameLoop nameSz cs (i + 1) (i + 1))
    else
      (if i = nameSz - 1 then [⟨startPos, i - startPos + 1⟩] else []) ++
        splitMsgNameLoop nameSz cs (i + 1) startPos

def StdString.tokens (name : StdString) : List StringView := splitMsgNameLoop name.size name.chars 0 0

theorem splitLoop_eq (token cs : List Char) :
    splitLoop token cs = cs.splitOnPPrepend (· == '.') token.reverse := by
  induction cs generalizing token with
  | nil => simp [splitLoop]
  | cons c cs ih =>
    rw [splitLoop]
    split
    · next hDot => rw [List.splitOnPPrepend_cons_pos (by simp [hDot]), ih, List.reverse_reverse, List.reverse_nil,
      List.splitOnPPrepend_nil_right]
    · next hOther => rw [List.splitOnPPrepend_cons_neg (by simp [hOther]), ih, List.reverse_append]; rfl

theorem splitLoop_nil (cs : List Char) : splitLoop [] cs = cs.splitOn '.' := splitLoop_eq [] cs

theorem not_mem_of_mem_splitLoop {token cs t : List Char} (hToken : '.' ∉ token)
    (h : t ∈ splitLoop token cs) : '.' ∉ t := by
  induction cs generalizing token with
  | nil => exact List.mem_singleton.mp h ▸ hToken
  | cons c cs ih =>
    rw [splitLoop] at h
    split at h
    · obtain rfl | h := List.mem_cons.mp h
      · exact hToken
      · exact ih List.not_mem_nil h
    · next hOther =>
      apply ih _ h
      rw [List.mem_append, List.mem_singleton]
      exact not_or.mpr ⟨hToken, Ne.symm hOther⟩

theorem toNat_ofNat_of_fits {k : ℕ} (h : k < 2 ^ 64) : (UInt64.ofNat k).toNat = k :=
  UInt64.toNat_ofNat_of_lt' h

/-- The length of the token after a trailing dot. -/
theorem sub_succ_add_one (i : UInt64) : i - (i + 1) + 1 = 0 := by grind

theorem StdString.text_of_append (name : StdString) {read token rest : List Char}
    (hName : name.chars = read ++ token ++ rest) :
    name.text ⟨.ofNat read.length, .ofNat token.length⟩ = token ∧
      name.InBounds ⟨.ofNat read.length, .ofNat token.length⟩ := by
  have hFits := name.fits
  have hLength : name.chars.length = read.length + token.length + rest.length := by
    rw [hName, List.length_append, List.length_append]
  have hPos : (UInt64.ofNat read.length).toNat = read.length := toNat_ofNat_of_fits (by omega)
  have hSize : (UInt64.ofNat token.length).toNat = token.length := toNat_ofNat_of_fits (by omega)
  rw [text, InBounds, hPos, hSize]
  refine ⟨?_, by omega⟩
  rw [hName, List.append_assoc, List.drop_left, List.take_left]

theorem StdString.last_iff (name : StdString) {k : ℕ} (h : k < name.chars.length) :
    UInt64.ofNat k = name.size - 1 ↔ k + 1 = name.chars.length := by
  have hFits := name.fits
  have hSize : name.size - 1 = UInt64.ofNat (name.chars.length - 1) :=
    (UInt64.ofNat_sub (a := name.chars.length) (b := 1) (by omega)).symm
  rw [hSize, ← UInt64.toNat_inj, toNat_ofNat_of_fits (by omega), toNat_ofNat_of_fits (by omega)]
  omega

/-- At each turn the token read so far begins at `start_pos`. -/
theorem splitMsgNameLoop_spec (name : StdString) {read token cs : List Char}
    (hName : name.chars = read ++ token ++ cs) (hCs : cs ≠ []) :
    (splitMsgNameLoop name.size cs (.ofNat (read ++ token).length) (.ofNat read.length)).map name.text =
        splitLoop token cs ∧
      ∀ v ∈ splitMsgNameLoop name.size cs (.ofNat (read ++ token).length) (.ofNat read.length),
        name.InBounds v := by
  induction cs generalizing read token with
  | nil => exact absurd rfl hCs
  | cons c cs ih =>
    have hLength : name.chars.length = (read ++ token).length + 1 + cs.length := by
      rw [hName, List.length_append, List.length_cons]
      omega
    have hLast : UInt64.ofNat (read ++ token).length = name.size - 1 ↔ cs = [] := by
      rw [name.last_iff (by omega), ← List.length_eq_zero_iff]
      omega
    have hNext : UInt64.ofNat (read ++ token).length + 1 = .ofNat (read ++ token ++ [c]).length := by
      have hLengthOne : (read ++ token ++ [c]).length = (read ++ token).length + 1 := List.length_append
      rw [hLengthOne]
      exact (UInt64.ofNat_add ..).symm
    have hSize : UInt64.ofNat (read ++ token).length - .ofNat read.length = .ofNat token.length := by
      rw [← UInt64.ofNat_sub (by simp)]
      simp
    rw [splitMsgNameLoop, splitLoop]
    split
    · next hDot =>
      obtain ⟨hText, hIn⟩ := name.text_of_append hName
      have hRest : name.chars = (read ++ token ++ [c]) ++ [] ++ cs := by simp [hName]
      rw [hSize, sub_succ_add_one, hNext, List.map_cons, hText, List.forall_mem_cons, and_iff_right hIn,
        List.cons_inj_right]
      obtain rfl | hMore := eq_or_ne cs []
      · -- the last character is a dot: an empty token follows, at the end of the name
        obtain ⟨hEmpty, hAtEnd⟩ := name.text_of_append hRest
        rw [if_pos (hLast.mpr rfl)]
        exact ⟨congrArg (fun t => [t]) hEmpty, List.forall_mem_singleton.mpr hAtEnd⟩
      · rw [if_neg (hLast.not.mpr hMore), List.nil_append]
        have hLoop := ih hRest hMore
        rwa [List.append_nil] at hLoop
    · have hRest : name.chars = read ++ (token ++ [c]) ++ cs := by simp [hName]
      have hGrown : UInt64.ofNat token.length + 1 = .ofNat (token ++ [c]).length := by
        rw [List.length_append]
        exact (UInt64.ofNat_add ..).symm
      obtain ⟨hText, hIn⟩ := name.text_of_append hRest
      rw [hSize, hGrown, hNext, List.append_assoc]
      obtain rfl | hMore := eq_or_ne cs []
      · rw [if_pos (hLast.mpr rfl)]
        exact ⟨congrArg (fun t => [t]) hText, List.forall_mem_singleton.mpr hIn⟩
      · rw [if_neg (hLast.not.mpr hMore), List.nil_append]
        exact ih hRest hMore

theorem StdString.tokens_of_empty {name : StdString} (h : name.chars = []) : name.tokens = [] := by
  rw [tokens, h]
  rfl

theorem StdString.tokens_spec (name : StdString) (h : name.chars ≠ []) :
    name.tokens.map name.text = name.chars.splitOn '.' ∧ ∀ v ∈ name.tokens, name.InBounds v := by
  rw [← splitLoop_nil]
  exact @splitMsgNameLoop_spec name [] [] name.chars rfl h

/-- The views show the parts by which the rest of the framework knows a name. -/
theorem StdString.splitMsgName_eq (name : StdString) :
    splitMsgName (String.ofList name.chars) = name.tokens.map fun v => String.ofList (name.text v) := by
  rw [splitMsgName, String.toList_ofList]
  split
  · next hEmpty => rw [tokens_of_empty hEmpty, List.map_nil]
  · next hSome =>
    rw [splitLoop_nil, ← (name.tokens_spec hSome).1, List.map_map]
    rfl

/-- The tokens lie in the name, have no dots and are what the dots of the name join; and whatever parts
without dots a name is joined from, if there are two at least, it splits into them. -/
theorem splitMsgName_inverse (name : StdString) :
    (∀ v ∈ name.tokens, name.InBounds v ∧ '.' ∉ name.text v) ∧
      ['.'].intercalate (name.tokens.map name.text) = name.chars ∧
      (name.chars ≠ [] → name.tokens.length = name.chars.count '.' + 1) ∧
      (name.chars = [] → name.tokens = []) ∧
      ∀ parts : List (List Char), 2 ≤ parts.length → (∀ p ∈ parts, '.' ∉ p) →
        ['.'].intercalate parts = name.chars → name.tokens.map name.text = parts := by
  by_cases hEmpty : name.chars = []
  · rw [StdString.tokens_of_empty hEmpty, hEmpty]
    refine ⟨fun v hv => absurd hv List.not_mem_nil, rfl, absurd rfl, fun _ => rfl,
      fun parts hTwo _ hJoined => ?_⟩
    cases parts with
    | nil => exact absurd hTwo (by decide)
    | cons first parts =>
      cases parts with
      | nil => exact absurd hTwo (by simp)
      | cons second parts => simp [List.intercalate_cons_cons] at hJoined
  · obtain ⟨hTexts, hBounds⟩ := name.tokens_spec hEmpty
    rw [hTexts]
    refine ⟨fun v hv => ⟨hBounds v hv, ?_⟩, List.intercalate_splitOn .., fun _ => ?_,
      fun hNone => absurd hNone hEmpty, fun parts hTwo hParts hJoined => ?_⟩
    · have hToken : name.text v ∈ splitLoop [] name.chars := by
        rw [splitLoop_nil, ← hTexts]
        exact List.mem_map_of_mem hv
      exact not_mem_of_mem_splitLoop List.not_mem_nil hToken
    · rw [← splitLoop_length [], splitLoop_nil, ← hTexts, List.length_map]
    · rw [← hJoined]
      apply List.splitOn_intercalate '.' hParts
      rintro rfl
      exact absurd hTwo (by decide)

end Common
end Myframe
