import Myframe.Launcher.Accepts

/-! # Writing down what has been parsed

What the parser has accepted is written with an item for each option that has been set, and the other arguments
after them.
-/
namespace Myframe
namespace Cmdline
set_option autoImplicit false

variable {V : Type} (shown : V → String)

/-- The text for an option that has been set. -/
def OptionBase.texts : OptionBase V → List (Option String)
  | withoutValue _ true => [none]
  | withValue _ _ _ true actual => [some (shown actual)]
  | _ => []

/-- The reader of the option reads back what is shown of a value that it has read. -/
def OptionBase.ReadsBack : OptionBase V → Prop
  | withoutValue _ _ => True
  | withValue _ _ read _ _ => ∀ text v, read text = some v → read (shown v) = some v

def Item.ofText (name : String) : Option String → Item
  | none => flag name
  | some value => assign name value

def Parser.render (q : Parser V) : List Item :=
  (q.options.flatMap fun e => (e.2.texts shown).map (Item.ofText e.1)) ++ q.others.map Item.plain

variable {shown}

/-- An option that no one has set before and that has taken these texts takes what is shown of it just so. -/
theorem OptionBase.after_texts {o : OptionBase V} (hFresh : o.hasSet = false) (hReads : o.ReadsBack shown)
    {texts : List (Option String)} (hTexts : ∀ t ∈ texts, (o.take t).isSome) :
    o.after ((o.after texts).texts shown) = o.after texts ∧
      ∀ t ∈ (o.after texts).texts shown, (o.take t).isSome := by
  obtain rfl | ⟨before, last, rfl⟩ := List.eq_nil_or_concat' texts
  · have hNone : o.texts shown = [] := by
      cases o with
      | withoutValue c has => rw [show has = false from hFresh]; rfl
      | withValue c need read has actual => rw [show has = false from hFresh]; rfl
    rw [OptionBase.after_nil, hNone, OptionBase.after_nil]
    exact ⟨rfl, List.forall_mem_nil _⟩
  · have hLast := hTexts last (List.mem_append_right _ (List.mem_singleton_self last))
    cases o with
    | withoutValue c has =>
      have hAfter : (withoutValue c has : OptionBase V).after (before ++ [last]) = withoutValue c true := by
        simp [after]
      rw [hAfter]
      constructor
      · simp [after, texts]
      · exact List.forall_mem_singleton.mpr rfl
    | withValue c need read has actual =>
      cases last with
      | none => cases hLast
      | some text =>
        obtain ⟨v, hRead⟩ : ∃ v, read text = some v := by
          rw [take_isSome] at hLast
          exact Option.isSome_iff_exists.mp hLast
        have hAfter : (withValue c need read has actual).after (before ++ [some text]) =
            withValue c need read true v := by
          simp [after, hRead]
        rw [hAfter]
        have hBack := hReads text v hRead
        constructor
        · simp [after, texts, hBack]
        · exact List.forall_mem_singleton.mpr (by simp [take, setTo, hBack])

/-- Under each name stand the texts for its own option. -/
theorem textsOf_flatMap {α : Type} {entries : List (String × α)} (hNodup : (entries.map Prod.fst).Nodup)
    (f : α → List (Option String)) {e : String × α} (he : e ∈ entries) :
    textsOf (entries.flatMap fun e => (f e.2).map fun t => (e.1, t)) e.1 = f e.2 := by
  have hEach : ∀ e' : String × α, textsOf ((f e'.2).map fun t => (e'.1, t)) e.1 =
      if e'.1 = e.1 then f e'.2 else [] := by
    intro e'
    rw [textsOf, List.filter_map, List.map_map]
    split
    · next hEq => simp [Function.comp_def, hEq]
    · next hNe => simp [Function.comp_def, hNe]
  have hNone : ∀ entries : List (String × α), e.1 ∉ entries.map Prod.fst →
      textsOf (entries.flatMap fun e => (f e.2).map fun t => (e.1, t)) e.1 = [] := by
    intro entries hNotMem
    induction entries with
    | nil => rfl
    | cons e' entries ih =>
      rw [List.map_cons, List.mem_cons, not_or] at hNotMem
      rw [List.flatMap_cons, textsOf_append, hEach, if_neg (Ne.symm hNotMem.1), ih hNotMem.2, List.append_nil]
  induction entries with
  | nil => cases he
  | cons e' entries ih =>
    obtain ⟨hNotMem, hRest⟩ := List.nodup_cons.mp hNodup
    rw [List.flatMap_cons, textsOf_append, hEach]
    obtain rfl | hMem := List.mem_cons.mp he
    · rw [if_pos rfl, hNone entries hNotMem, List.append_nil]
    · have hNe : e'.1 ≠ e.1 := fun hEq => hNotMem (hEq ▸ List.mem_map_of_mem hMem)
      rw [if_neg hNe, List.nil_append, ih hRest hMem]

theorem Item.settings_ofText (p : Parser V) (name : String) (text : Option String) :
    (ofText name text).settings p = [(name, text)] := by
  cases text with
  | none => rfl
  | some value => rfl

theorem Item.fits_ofText {p : Parser V} {name : String} {text : Option String} (hName : '=' ∉ name.toList)
    (hTakes : p.Takes (name, text)) : (ofText name text).Fits p := by
  cases text with
  | none => exact ⟨hName, List.forall_mem_nil _, List.forall_mem_singleton.mpr hTakes⟩
  | some value => exact ⟨hName, List.forall_mem_nil _, List.forall_mem_singleton.mpr hTakes⟩

namespace Parser

theorem names_nodup (p : Parser V) : (p.options.map Prod.fst).Nodup := p.sorted.imp ne_of_lt

theorem takes_iff_of_mem {p : Parser V} {e : String × OptionBase V} (he : e ∈ p.options) (text : Option String) :
    p.Takes (e.1, text) ↔ (e.2.take text).isSome := by
  rw [Takes, p.sorted.lookup_of_mem he]
  constructor
  · rintro ⟨_, ⟨⟩, hTake⟩
    exact hTake
  · exact fun hTake => ⟨e.2, rfl, hTake⟩

theorem render_settings (p q : Parser V) : (q.render shown).flatMap (Item.settings p) =
    q.options.flatMap fun e => (e.2.texts shown).map fun t => (e.1, t) := by
  have hPlain : (q.others.map Item.plain).flatMap (Item.settings p) = [] := by
    simp [List.flatMap_map, Item.settings]
  rw [render, List.flatMap_append, hPlain, List.append_nil, List.flatMap_assoc]
  simp only [List.flatMap_map, Item.settings_ofText, ← List.map_eq_flatMap]

theorem render_positional (q : Parser V) : (q.render shown).flatMap Item.positional = q.others := by
  have hOption : ∀ (name : String) (text : Option String), (Item.ofText name text).positional = [] := by
    intro name text
    cases text with
    | none => rfl
    | some value => rfl
  have hPlain : (q.others.map Item.plain).flatMap Item.positional = q.others := by
    simp [List.flatMap_map, Item.positional]
  rw [render, List.flatMap_append, hPlain, List.flatMap_assoc]
  simp only [List.flatMap_map, hOption]
  simp

theorem plain_of_positional {i : Item} {word : String} (h : word ∈ i.positional) : i = .plain word := by
  cases i with
  | plain word' => rw [List.mem_singleton.mp h]
  | assign name value => cases h
  | given name value => cases h
  | flag name => cases h
  | cluster flags last => cases h
  | clusterGiven flags last value => cases h
  | dash => cases h

/-- What has been parsed with fresh options is parsed again from what is written of it. -/
theorem parse_render {p q : Parser V} {argv : List String} (hFresh : ∀ e ∈ p.options, e.2.hasSet = false)
    (hNames : ∀ e ∈ p.options, '=' ∉ e.1.toList) (hReads : ∀ e ∈ p.options, e.2.ReadsBack shown)
    (h : p.parse argv = (q, true)) (prog : String) :
    p.parse (prog :: (q.render shown).flatMap Item.words) = (q, true) := by
  obtain ⟨hUnambiguous, -, items, -, hFits, hComplete, hEnd⟩ := (p.parse_iff_items q argv).mp h
  obtain ⟨table, hTable⟩ := p.unambiguous_iff.mp hUnambiguous
  obtain ⟨hOptions, hOthers⟩ := foldl_act hFits p.clear_clean
  rw [← hEnd] at hOptions hOthers
  have hTaken : ∀ e ∈ p.options, ∀ t ∈ textsOf (items.flatMap (Item.settings p)) e.1, (e.2.take t).isSome := by
    intro e he t ht
    obtain ⟨s, hs, rfl⟩ := List.mem_map.mp ht
    obtain ⟨hMem, hName⟩ := List.mem_filter.mp hs
    obtain ⟨i, hi, hSetting⟩ := List.mem_flatMap.mp hMem
    rw [← takes_iff_of_mem he, ← of_decide_eq_true hName]
    exact (hFits i hi).takes s hSetting
  have hAfter := fun e he => OptionBase.after_texts (hFresh e he) (hReads e he) (hTaken e he)
  have hText : ∀ e ∈ p.options, textsOf ((q.render shown).flatMap (Item.settings p)) e.1 =
      (e.2.after (textsOf (items.flatMap (Item.settings p)) e.1)).texts shown := by
    intro e he
    have hMem : (e.1, e.2.after (textsOf (items.flatMap (Item.settings p)) e.1)) ∈ q.options := by
      rw [hOptions]
      exact List.mem_map_of_mem he
    rw [render_settings]
    exact textsOf_flatMap q.names_nodup (OptionBase.texts shown) hMem
  have hSame : q.options = p.options.map fun e =>
      (e.1, e.2.after (textsOf ((q.render shown).flatMap (Item.settings p)) e.1)) := by
    rw [hOptions]
    apply List.map_congr_left
    intro e he
    rw [hText e he, (hAfter e he).1]
  have hFitsAgain : ∀ i ∈ q.render shown, i.Fits p := by
    rw [render, List.forall_mem_append]
    constructor
    · intro i hi
      obtain ⟨e', he', hi⟩ := List.mem_flatMap.mp hi
      obtain ⟨t, ht, rfl⟩ := List.mem_map.mp hi
      rw [hOptions] at he'
      obtain ⟨e, he, rfl⟩ := List.mem_map.mp he'
      exact Item.fits_ofText (hNames e he) ((takes_iff_of_mem he t).mpr ((hAfter e he).2 t ht))
    · intro i hi
      obtain ⟨word, hWord, rfl⟩ := List.mem_map.mp hi
      rw [hOthers] at hWord
      obtain ⟨i, hi, hPositional⟩ := List.mem_flatMap.mp hWord
      obtain rfl := plain_of_positional hPositional
      exact hFits _ hi
  obtain ⟨hOptionsAgain, hOthersAgain⟩ := foldl_act hFitsAgain p.clear_clean
  have hClean := (reads hTable).foldl_good p.clear_clean hFits
  have hCleanAgain := (reads hTable).foldl_good p.clear_clean hFitsAgain
  refine (p.parse_iff_items q _).mpr ⟨hUnambiguous, prog, q.render shown, rfl, hFitsAgain, ?_, ?_⟩
  · rw [← complete_iff hSame, complete_iff hOptions]
    exact hComplete
  · ext1
    · exact hSame.trans hOptionsAgain.symm
    · rw [hOthersAgain, render_positional]
      rfl
    · rw [hCleanAgain.2, hEnd, hClean.2]

/-- A directory and a flag. -/
def twoOptions : Parser String where
  options := [("dir", .withValue (some 'd') false some false ""), ("verbose", .withoutValue (some 'v') false)]
  sorted := by decide

theorem parse_render_two :
    let q := (twoOptions.parse ["prog", "-vd", "a", "-d", "b=c", "-", "file"]).1
    (q.render id).flatMap Item.words = ["--dir=b=c", "--verbose", "file"] ∧
      twoOptions.parse ("prog" :: (q.render id).flatMap Item.words) = (q, true) := by
  constructor
  · rfl
  · have hParse : twoOptions.parse ["prog", "-vd", "a", "-d", "b=c", "-", "file"] =
        ((twoOptions.parse ["prog", "-vd", "a", "-d", "b=c", "-", "file"]).1, true) := rfl
    refine parse_render ?_ ?_ ?_ hParse "prog"
    · decide
    · decide
    · exact List.forall_mem_cons.mpr ⟨fun text v hRead => rfl, List.forall_mem_singleton.mpr trivial⟩

end Parser
end Cmdline
end Myframe
