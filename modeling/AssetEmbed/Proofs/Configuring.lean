import AssetEmbed.Config
import AssetEmbed.Proofs.Sequencing
import AssetEmbed.Proofs.Sorting
import AssetEmbed.Proofs.Text.Utf8
import Mathlib.Data.Set.List

/-!
# Configuring — which documents are configurations

A document with settings is a map whose keys are all known and whose values all suit their keys.  Anything else is
refused, except that a value that counts as nothing stands for the defaults, and that some documents are never
examined: their bytes are no text, their values cannot be built, or their unknown keys cannot be told.
-/

namespace AssetEmbed

open Yaml (Value)

/-! ## 1. Keys of a map -/

namespace Yaml.Value

def HasDistinctKeys (entries : List (Value × Value)) : Prop :=
  (entries.map (·.1)).Pairwise fun k k' => same k k' = false

theorem distinct_eq_ok {entries es : List (Value × Value)} (h : distinct entries = .ok es) :
    es = entries ∧ HasDistinctKeys entries := by
  induction entries generalizing es with
  | nil =>
    cases h
    exact ⟨rfl, .nil⟩
  | cons e rest ih =>
    obtain ⟨k, v⟩ := e
    unfold distinct at h
    split at h
    case isTrue => cases h
    case isFalse hfirst =>
      obtain ⟨es, hes, rfl⟩ := map_eq_ok.1 h
      obtain ⟨rfl, hrest⟩ := ih hes
      refine ⟨rfl, List.Pairwise.cons ?_ hrest⟩
      simpa using hfirst

theorem keys_put (key value : Value) (entries : List (Value × Value)) :
    (put key value entries).map (·.1) =
      if entries.any fun e => same e.1 key then entries.map (·.1) else entries.map (·.1) ++ [key] := by
  induction entries with
  | nil => rfl
  | cons e rest ih =>
    obtain ⟨k, v⟩ := e
    unfold put
    cases hk : same k key with
    | true => simp [hk]
    | false =>
      simp only [Bool.false_eq_true, if_false, List.map_cons, List.any_cons, hk, Bool.false_or, ih]
      split <;> rfl

theorem HasDistinctKeys.put {entries : List (Value × Value)} (h : HasDistinctKeys entries) (key value : Value) :
    HasDistinctKeys (put key value entries) := by
  unfold HasDistinctKeys
  rw [keys_put]
  split
  case isTrue => exact h
  case isFalse hnew =>
    refine List.pairwise_append.2 ⟨h, List.pairwise_singleton _ _, fun k hk k' hk' => ?_⟩
    obtain ⟨e, he, rfl⟩ := List.mem_map.1 hk
    rw [List.mem_singleton.1 hk']
    simpa using fun heq => hnew (List.any_eq_true.2 ⟨e, he, heq⟩)

theorem hasDistinctKeys_foldl_put (added : List (Value × Value)) {entries : List (Value × Value)}
    (h : HasDistinctKeys entries) : HasDistinctKeys (added.foldl (fun es (k, v) => Value.put k v es) entries) := by
  induction added generalizing entries with
  | nil => exact h
  | cons e rest ih => exact ih (h.put e.1 e.2)

theorem hasDistinctKeys_of_ofEntries {merged own es : List (Value × Value)} (h : ofEntries merged own = .ok es) :
    HasDistinctKeys es := by
  unfold ofEntries at h
  split at h
  case isTrue =>
    obtain ⟨rfl, hdistinct⟩ := distinct_eq_ok h
    exact hdistinct
  case isFalse =>
    cases h
    exact hasDistinctKeys_foldl_put _ .nil

theorem ofScalar_ne_map {schema : Schema} {s : Text} {kind : Kind} {entries : List (Value × Value)} :
    ofScalar schema s kind ≠ .ok (.map entries) := by
  intro h
  cases kind <;> simp only [ofScalar] at h <;> (repeat' split at h) <;> cases h

/-- A map has each key once. -/
theorem hasDistinctKeys_of_ofNode {schema : Schema} {node : Node} {entries : List (Value × Value)}
    (h : ofNode schema node = .ok (.map entries)) : HasDistinctKeys entries := by
  cases node with
  | enclosing =>
    rw [ofNode] at h
    cases h
  | scalar tag plain s =>
    rw [ofNode] at h
    split at h
    · exact absurd h ofScalar_ne_map
    · cases h
  | sequence tag items =>
    rw [ofNode] at h
    split at h
    · obtain ⟨_, -, h⟩ := map_eq_ok.1 h
      cases h
    · -- a mapping in the notation of a sequence
      obtain ⟨found, -, h⟩ := bind_eq_ok.1 h
      obtain ⟨es, hes, h⟩ := map_eq_ok.1 h
      cases h
      obtain ⟨rfl, hdistinct⟩ := distinct_eq_ok hes
      exact hdistinct
    · obtain ⟨_, -, h⟩ := bind_eq_ok.1 h
      cases h
    · cases h
  | mapping tag own =>
    rw [ofNode] at h
    obtain ⟨parts, -, h⟩ := bind_eq_ok.1 h
    obtain ⟨es, hes, h⟩ := bind_eq_ok.1 h
    split at h <;> cases h
    exact hasDistinctKeys_of_ofEntries hes

theorem hasDistinctKeys_of_ofText {s : Text} {entries : List (Value × Value)} (h : ofText s = .ok (.map entries)) :
    HasDistinctKeys entries := by
  unfold ofText at h
  split at h
  · exact hasDistinctKeys_of_ofNode h
  · cases h

/-- Two values of one string as a key are the same value. -/
theorem HasDistinctKeys.eq_of_mem {entries : List (Value × Value)} (h : HasDistinctKeys entries) {s : Text}
    {v w : Value} (hv : (.string s, v) ∈ entries) (hw : (.string s, w) ∈ entries) : v = w := by
  have hsame : same (.string s) (.string s) = true := by simp [same]
  induction entries with
  | nil => cases hv
  | cons e rest ih =>
    obtain ⟨hfirst, hrest⟩ := List.pairwise_cons.1 h
    have hnew : ∀ u : Value, e.1 = .string s → (.string s, u) ∉ rest := by
      intro u he hu
      have hother : same e.1 (.string s) = false := hfirst _ (List.mem_map_of_mem hu)
      rw [he, hsame] at hother
      cases hother
    rcases List.mem_cons.1 hv with rfl | hv' <;> rcases List.mem_cons.1 hw with hhead | hw'
    · exact (Prod.ext_iff.1 hhead).2.symm
    · exact absurd hw' (hnew w rfl)
    · exact absurd hv' (hnew v (Prod.ext_iff.1 hhead).1.symm)
    · exact ih hrest hv' hw'

end Yaml.Value

/-! ## 2. Readers -/

theorem textOf?_eq_some {v : Value} {s : Text} : textOf? v = some s ↔ v = .string s := by
  cases v <;> simp [textOf?]

theorem mapM_textOf?_eq_some {vs : List Value} {ss : List Text} :
    vs.mapM textOf? = some ss ↔ vs = ss.map .string := by
  induction vs generalizing ss with
  | nil => cases ss <;> simp
  | cons v vs ih =>
    simp only [List.mapM_cons, Option.bind_eq_bind, Option.bind_eq_some_iff, textOf?_eq_some, ih, Option.pure_def,
      Option.some.injEq]
    constructor
    · rintro ⟨s, rfl, ss, rfl, rfl⟩
      rfl
    · intro h
      obtain ⟨s, ss', rfl, rfl, rfl⟩ := List.map_eq_cons_iff.1 h.symm
      exact ⟨s, rfl, ss', rfl, rfl⟩

namespace ConfigKey

def IsFilled (v : Value) : Prop := ∃ s : Text, s ≠ [] ∧ v = .string s

def IsTexts (v : Value) : Prop := (∃ s, v = .string s) ∨ ∃ ss : List Text, v = .list (ss.map .string)

/-- Whether a value suits a key. -/
def Admits : ConfigKey → Value → Prop
  | .marker | .encoding => IsFilled
  | .extensions | .included | .excluded => IsTexts
  | .sourceMap => fun v => ∃ b, v = .bool b

/-- What is wrong with a configuration in which the value of a key does not suit it. -/
def refusal (key : ConfigKey) : ConfigError :=
  match key with
  | .marker | .encoding => .notText key
  | .extensions | .included | .excluded => .notTexts key
  | .sourceMap => .notBool key

variable {key : ConfigKey} {entries : List (Value × Value)}

theorem mem_of_given? {v : Value} (h : key.given? entries = some v) :
    (.string key.name.toList, v) ∈ entries := by
  obtain ⟨e, he, rfl⟩ := Option.map_eq_some_iff.1 h
  have hname : textOf? e.1 = some key.name.toList := by simpa using List.find?_some he
  rw [← textOf?_eq_some.1 hname]
  exact List.mem_reverse.1 (List.mem_of_find?_eq_some he)

theorem given?_eq_some (h : Value.HasDistinctKeys entries) {v : Value} :
    key.given? entries = some v ↔ (.string key.name.toList, v) ∈ entries := by
  refine ⟨mem_of_given?, fun hv => ?_⟩
  cases hgiven : key.given? entries with
  | some w => rw [h.eq_of_mem (mem_of_given? hgiven) hv]
  | none =>
    have hnone := List.find?_eq_none.1 (Option.map_eq_none_iff.1 hgiven) _ (List.mem_reverse.2 hv)
    simp [textOf?] at hnone

/-- Whether settings are made exactly if the values of some keys, as far as they are given, suit them, and otherwise
one of these keys is told. -/
def Answers {α : Type} (keys : List ConfigKey) (entries : List (Value × Value)) (x : Except ConfigError α) : Prop :=
  ((∃ a, x = .ok a) ∧ ∀ key ∈ keys, ∀ v, key.given? entries = some v → key.Admits v) ∨
    ∃ key ∈ keys, (∃ v, key.given? entries = some v ∧ ¬ key.Admits v) ∧ x = .error key.refusal

section Answers

variable {α β : Type} {x : Except ConfigError α}

theorem answers_of_given? (hnone : key.given? entries = none → ∃ a, x = .ok a)
    (hsome : ∀ v, key.given? entries = some v →
      (∃ a, x = .ok a) ∧ key.Admits v ∨ ¬ key.Admits v ∧ x = .error key.refusal) :
    Answers [key] entries x := by
  unfold Answers
  simp only [List.mem_singleton, forall_eq, exists_eq_left]
  cases hgiven : key.given? entries with
  | none => exact .inl ⟨hnone hgiven, by simp⟩
  | some v =>
    rcases hsome v hgiven with ⟨hx, hadmits⟩ | ⟨hadmits, hx⟩
    · refine .inl ⟨hx, fun w hw => ?_⟩
      rwa [← Option.some.inj hw]
    · exact .inr ⟨⟨v, rfl, hadmits⟩, hx⟩

theorem Answers.bind {keys keys' : List ConfigKey} {f : α → Except ConfigError β} (hx : Answers keys entries x)
    (hf : ∀ a, Answers keys' entries (f a)) : Answers (keys ++ keys') entries (x >>= f) := by
  rcases hx with ⟨⟨a, rfl⟩, hkeys⟩ | ⟨key, hkey, hv, rfl⟩
  · rcases hf a with ⟨hb, hkeys'⟩ | ⟨key, hkey, hv, hb⟩
    · exact .inl ⟨hb, List.forall_mem_append.2 ⟨hkeys, hkeys'⟩⟩
    · exact .inr ⟨key, List.mem_append_right _ hkey, hv, hb⟩
  · exact .inr ⟨key, List.mem_append_left _ hkey, hv, rfl⟩

theorem answers_pure (b : β) : Answers [] entries (pure b : Except ConfigError β) :=
  .inl ⟨⟨b, rfl⟩, by simp⟩

end Answers

theorem text_answers (hadmits : key.Admits = IsFilled) (hrefusal : key.refusal = .notText key) (default : Text) :
    Answers [key] entries (key.text default entries) := by
  refine answers_of_given? (fun hnone => ⟨default, by simp [text, hnone]⟩) fun v hv => ?_
  unfold text
  simp only [hv, hadmits, hrefusal]
  split
  case h_1 c s hs => exact .inl ⟨⟨_, rfl⟩, c :: s, List.cons_ne_nil c s, textOf?_eq_some.1 hs⟩
  case h_2 hother =>
    refine .inr ⟨?_, rfl⟩
    rintro ⟨s, hs, rfl⟩
    obtain ⟨c, s, rfl⟩ := List.exists_cons_of_ne_nil hs
    exact hother c s rfl

theorem texts_answers (hadmits : key.Admits = IsTexts) (hrefusal : key.refusal = .notTexts key)
    (default : List Text) : Answers [key] entries (key.texts default entries) := by
  refine answers_of_given? (fun hnone => ⟨default, by simp [texts, hnone]⟩) fun v hv => ?_
  unfold texts
  simp only [hv, hadmits, hrefusal]
  split
  case h_1 hgiven => cases hgiven
  case h_2 s hgiven => exact .inl ⟨⟨_, rfl⟩, .inl ⟨s, Option.some.inj hgiven⟩⟩
  -- a list suits the key exactly if all of its items are texts
  case h_3 items hgiven =>
    obtain rfl := Option.some.inj hgiven
    split
    case h_1 ss hss => exact .inl ⟨⟨_, rfl⟩, .inr ⟨ss, congrArg Value.list (mapM_textOf?_eq_some.1 hss)⟩⟩
    case h_2 hnone =>
      refine .inr ⟨?_, rfl⟩
      rintro (⟨s, hs⟩ | ⟨ss, hss⟩)
      · cases hs
      · rw [mapM_textOf?_eq_some.2 (Value.list.inj hss)] at hnone
        cases hnone
  case h_4 w hstring hlist hgiven =>
    obtain rfl := Option.some.inj hgiven
    refine .inr ⟨?_, rfl⟩
    rintro (⟨s, rfl⟩ | ⟨ss, rfl⟩)
    · exact hstring s rfl
    · exact hlist _ rfl

theorem sourceMap_answers (default : Bool) :
    Answers [.sourceMap] entries (ConfigKey.sourceMap.bool default entries) := by
  refine answers_of_given? (fun hnone => ⟨default, by simp [bool, hnone]⟩) fun v hv => ?_
  unfold bool
  simp only [hv]
  split
  case h_1 hgiven => cases hgiven
  case h_2 b hgiven => exact .inl ⟨⟨_, rfl⟩, b, Option.some.inj hgiven⟩
  case h_3 w hbool hgiven =>
    obtain rfl := Option.some.inj hgiven
    refine .inr ⟨?_, rfl⟩
    rintro ⟨b, rfl⟩
    exact hbool b rfl

end ConfigKey

/-- The settings of a map of known keys are made exactly if all values suit their keys; otherwise a key is told whose
value does not. -/
theorem Config.ofKnown_answers (entries : List (Value × Value)) (path : Option Text) :
    ConfigKey.Answers [.sourceMap, .marker, .encoding, .extensions, .included, .excluded] entries
      (Config.ofKnown entries path) :=
  (ConfigKey.sourceMap_answers _).bind fun _ =>
  (ConfigKey.text_answers rfl rfl _).bind fun _ =>
  (ConfigKey.text_answers rfl rfl _).bind fun _ =>
  (ConfigKey.texts_answers rfl rfl _).bind fun _ =>
  (ConfigKey.texts_answers rfl rfl _).bind fun _ =>
  (ConfigKey.texts_answers rfl rfl _).bind fun _ =>
  ConfigKey.answers_pure _

/-! ## 3. Settings of a map -/

/-- Whether a value is a map in which each entry has a known key, and a value that suits it. -/
def Yaml.Value.IsSettings : Value → Prop
  | .map entries => ∀ e ∈ entries, ∃ key : ConfigKey, e.1 = .string key.name.toList ∧ key.Admits e.2
  | _ => False

/-- Whether a value is a map with a key that is no string. -/
def Yaml.Value.HasForeignKey : Value → Prop
  | .map entries => ∃ e ∈ entries, ∀ s, e.1 ≠ .string s
  | _ => False

theorem Yaml.Value.HasForeignKey.not_isSettings {value : Value} (h : value.HasForeignKey) : ¬ value.IsSettings := by
  cases value with
  | map entries =>
    intro hsettings
    obtain ⟨e, he, hforeign⟩ := h
    obtain ⟨key, hkey, -⟩ := hsettings e he
    exact hforeign _ hkey
  | _ => exact id

theorem ConfigKey.mem_all (key : ConfigKey) : key ∈ all := by
  cases key <;> decide

theorem ConfigKey.name_injective {key key' : ConfigKey} (h : key.name.toList = key'.name.toList) : key = key' := by
  cases key <;> cases key' <;> first | rfl | exact absurd h (by decide)

theorem mem_unknownKeys {entries : List (Value × Value)} {k : Value} :
    k ∈ unknownKeys entries ↔ (∃ e ∈ entries, e.1 = k) ∧ ∀ key : ConfigKey, k ≠ .string key.name.toList := by
  simp [unknownKeys, textOf?_eq_some, ConfigKey.mem_all]

theorem exists_of_mapM_textOf?_eq_none {vs : List Value} (h : vs.mapM textOf? = none) :
    ∃ v ∈ vs, ∀ s, v ≠ .string s := by
  by_contra! hstrings
  obtain ⟨ss, rfl⟩ : vs ∈ Set.range (List.map Value.string) := by
    rw [Set.range_list_map]
    intro v hv
    obtain ⟨s, hs⟩ := hstrings v hv
    exact ⟨s, hs.symm⟩
  rw [mapM_textOf?_eq_some.2 rfl] at h
  cases h

namespace Config

/-- The three things that can become of a map: it has settings, a key of it cannot be told, or it is refused. -/
theorem ofEntries_cases {entries : List (Value × Value)} (h : Value.HasDistinctKeys entries) (path : Option Text) :
    ((Value.map entries).IsSettings ∧ ∃ config, ofEntries entries path = .ok config) ∨
      ((Value.map entries).HasForeignKey ∧ ofEntries entries path = .error .foreignKey) ∨
      (¬ (Value.map entries).IsSettings ∧ ¬ (Value.map entries).HasForeignKey ∧
        ∃ e, ofEntries entries path = .error (.refused e path)) := by
  unfold ofEntries
  split
  case h_1 hknown =>
    -- no key is unknown, and so the values decide
    have hkeys : ∀ e ∈ entries, ∃ key : ConfigKey, e.1 = .string key.name.toList := by
      intro e he
      by_contra! hunknown
      have hmem := mem_unknownKeys.2 ⟨⟨e, he, rfl⟩, hunknown⟩
      rw [hknown] at hmem
      cases hmem
    rcases ofKnown_answers entries path with ⟨⟨config, hconfig⟩, hadmits⟩ | ⟨key, -, ⟨v, hv, hrefused⟩, herror⟩
    · refine .inl ⟨fun e he => ?_, config, by rw [hconfig]; rfl⟩
      obtain ⟨key, hkey⟩ := hkeys e he
      refine ⟨key, hkey, hadmits key (by cases key <;> decide) e.2 ((ConfigKey.given?_eq_some h).2 ?_)⟩
      rwa [← hkey]
    · refine .inr (.inr ⟨fun hsettings => ?_, ?_, key.refusal, by rw [herror]; rfl⟩)
      · obtain ⟨key', hname, hadmits⟩ := hsettings _ (ConfigKey.mem_of_given? hv)
        rw [← ConfigKey.name_injective (Value.string.inj hname)] at hadmits
        exact hrefused hadmits
      · rintro ⟨e, he, hforeign⟩
        obtain ⟨key, hkey⟩ := hkeys e he
        exact hforeign _ hkey
  case h_2 unknown hunknown =>
    -- the unknown keys are told if all of them are strings
    split
    case h_1 names hnames =>
      refine .inr (.inr ⟨fun hsettings => ?_, ?_, _, rfl⟩)
      · obtain ⟨k, hk⟩ := List.exists_mem_of_ne_nil _ hunknown
        obtain ⟨⟨e, he, rfl⟩, hforeign⟩ := mem_unknownKeys.1 hk
        obtain ⟨key, hkey, -⟩ := hsettings e he
        exact hforeign key hkey
      · rintro ⟨e, he, hforeign⟩
        have hmem := mem_unknownKeys.2 ⟨⟨e, he, rfl⟩, fun key => hforeign _⟩
        rw [mapM_textOf?_eq_some.1 hnames] at hmem
        obtain ⟨s, -, hs⟩ := List.mem_map.1 hmem
        exact hforeign s hs.symm
    case h_2 hnone =>
      obtain ⟨k, hk, hforeign⟩ := exists_of_mapM_textOf?_eq_none hnone
      obtain ⟨⟨e, he, rfl⟩, -⟩ := mem_unknownKeys.1 hk
      exact .inr (.inl ⟨⟨e, he, hforeign⟩, rfl⟩)

theorem map_normalizeExtension_default : default.extensions.map normalizeExtension = default.extensions := by
  have hnormal : ∀ extension ∈ (Script.Dialect.plainExtensions ++ Script.Dialect.typedExtensions ++
      [Script.Dialect.typedMarkupExtension]).map (·.toList), normalizeExtension extension = extension := by
    decide
  calc default.extensions.map normalizeExtension
    _ = default.extensions.map id := List.map_congr_left fun _ h => hnormal _ (Text.mem_sort.1 h)
    _ = default.extensions := List.map_id _

theorem ofEntries_nil (path : Option Text) : ofEntries [] path = .ok { default with path := path } := by
  have hknown : ofEntries [] path =
      .ok { default with extensions := default.extensions.map normalizeExtension, path := path } := rfl
  rw [hknown, map_normalizeExtension_default]

/-! ## 4. Documents -/

/-- What becomes of a document with a value. -/
theorem ofText_cases {text : Text} {value : Value} (h : Value.ofText text = .ok value) (path : Text) :
    (value.isNothing ∧ ofText path text = .ok { default with path := some path }) ∨
      ¬ value.isNothing ∧
        ((value.IsSettings ∧ ∃ config, ofText path text = .ok config) ∨
          (value.HasForeignKey ∧ ofText path text = .error .foreignKey) ∨
          (¬ value.IsSettings ∧ ¬ value.HasForeignKey ∧ ∃ e, ofText path text = .error (.refused e (some path)))) := by
  unfold ofText
  simp only [h]
  by_cases hnothing : value.isNothing
  · rw [if_pos hnothing]
    exact .inl ⟨hnothing, ofEntries_nil _⟩
  · rw [if_neg hnothing]
    refine .inr ⟨hnothing, ?_⟩
    split
    case h_1 entries => exact ofEntries_cases (Value.hasDistinctKeys_of_ofText h) _
    -- what is no map has neither settings nor a foreign key
    case h_2 hmap =>
      refine .inr (.inr ⟨?_, ?_, _, rfl⟩)
      · unfold Value.IsSettings
        split
        · exact absurd rfl (hmap _)
        · exact id
      · unfold Value.HasForeignKey
        split
        · exact absurd rfl (hmap _)
        · exact id

/-! ## 5. Files -/

/-- Whether bytes are a text that is read as a document with a result. -/
def Says (bytes : Bytes) (result : Except Yaml.Fault Value) : Prop :=
  ∃ text, Utf8.decode? bytes = .ok text ∧ Value.ofText text.unifyBreaks = result

variable {fs : FileSystem} {path : Text} {bytes : Bytes}

theorem load_of_undecodable (hfile : fs.entry? path = .ok (.file bytes)) {fault : Utf8.DecodeError}
    (h : Utf8.decode? bytes = .error fault) : load fs path = .error (.unreadable (.encoding fault)) := by
  simp [load, FileSystem.readText, FileSystem.read, hfile, h, Except.mapError, Except.map]

theorem load_of_decodable (hfile : fs.entry? path = .ok (.file bytes)) {text : Text}
    (h : Utf8.decode? bytes = .ok text) : load fs path = ofText path text.unifyBreaks := by
  simp [load, FileSystem.readText, FileSystem.read, hfile, h, Except.mapError, Except.map]

/-- A file has settings exactly if its document counts as nothing, which gives the defaults, or is a map of known keys
with values that suit them.  It is refused exactly if it has no document, or a document of another kind; and if there
are no settings for any other reason, its bytes are no text, a key of the map is no string, or a value of the document
cannot be built. -/
theorem load_answers_document (hfile : fs.entry? path = .ok (.file bytes)) :
    ((∃ config, load fs path = .ok config) ↔ ∃ value, Says bytes (.ok value) ∧ (value.isNothing ∨ value.IsSettings)) ∧
      (∀ value, Says bytes (.ok value) → value.isNothing →
        load fs path = .ok { default with path := some path }) ∧
      ((∃ e, load fs path = .error (.refused e (some path))) ↔
        Says bytes (.error .malformed) ∨
          ∃ value, Says bytes (.ok value) ∧ ¬ value.isNothing ∧ ¬ value.IsSettings ∧ ¬ value.HasForeignKey) ∧
      ∀ failure, load fs path = .error failure →
        (∃ e, failure = .refused e (some path)) ∨
          (∃ fault, failure = .unreadable (.encoding fault) ∧ Utf8.decode? bytes = .error fault) ∨
          (failure = .foreignKey ∧ ∃ value, Says bytes (.ok value) ∧ value.HasForeignKey) ∨
          ∃ fault, failure = .value fault ∧ fault ≠ .malformed ∧ Says bytes (.error fault) := by
  cases hdecode : Utf8.decode? bytes with
  | error fault =>
    -- bytes that are no text have no document, malformed or not
    have hdocument : ∀ result, ¬ Says bytes result := by
      rintro result ⟨text, htext, -⟩
      rw [hdecode] at htext
      cases htext
    simp [load_of_undecodable hfile hdecode, hdocument]
  | ok text =>
    have hdocument : ∀ result, Says bytes result ↔ Value.ofText text.unifyBreaks = result := by
      simp [Says, hdecode]
    simp only [load_of_decodable hfile hdecode, hdocument]
    cases hvalue : Value.ofText text.unifyBreaks with
    | error fault =>
      unfold ofText
      cases fault <;> simp [hvalue]
    | ok value =>
      rcases ofText_cases hvalue path with ⟨hnothing, hload⟩ | ⟨hthing, ⟨hsettings, config, hload⟩ |
        ⟨hforeign, hload⟩ | ⟨hsettings, hforeign, e, hload⟩⟩
      · simp [hload, hnothing]
      · simp [hload, hthing, hsettings]
      · simp [hload, hthing, hforeign, hforeign.not_isSettings]
      · simp [hload, hthing, hsettings, hforeign]

end Config

/-- A directory with settings, a list, bytes that are no text, and a map with a number for a key. -/
def documentTree : FileSystem where
  entries := [
    ("settings".toList, .file (Utf8.encode "marker: f\n".toList)),
    ("list".toList, .file (Utf8.encode "[]".toList)),
    ("bytes".toList, .file [255]),
    ("number".toList, .file (Utf8.encode "1: f\n".toList))]
  cwd := ['/']

/-- A map with the marker has settings. -/
theorem Config.load_answers_document_documentTree :
    documentTree.entry? "/settings".toList = .ok (.file (Utf8.encode "marker: f\n".toList)) ∧
      ∃ config, Config.load documentTree "/settings".toList = .ok config := by
  have hfile : documentTree.entry? "/settings".toList = .ok (.file (Utf8.encode "marker: f\n".toList)) := rfl
  have htokens : Yaml.Token.ofText? "marker: f\n".toList = some [.blockMapping, .key, .scalar true "marker".toList,
      .value, .scalar true "f".toList, .blockEnd] := by
    decide +kernel
  have hvalue : Value.ofText "marker: f\n".toList =
      .ok (.map [(.string "marker".toList, .string "f".toList)]) := by
    unfold Value.ofText
    rw [htokens]
    rfl
  refine ⟨hfile, (Config.load_answers_document hfile).1.2 ⟨_, ⟨_, Utf8.decode?_encode _, hvalue⟩, .inr ?_⟩⟩
  intro e he
  obtain rfl := List.mem_singleton.1 he
  exact ⟨.marker, rfl, "f".toList, by decide, rfl⟩

/-- A list without items is no map, and yet it stands for the defaults; bytes that are no text and a number as a key
are no configuration, and yet neither is refused as one. -/
theorem Config.load_takes_empty_list :
    Config.Says (Utf8.encode "[]".toList) (.ok (.list [])) ∧ ¬ (Value.list []).IsSettings ∧
      documentTree.entry? "/list".toList = .ok (.file (Utf8.encode "[]".toList)) ∧
      Config.load documentTree "/list".toList = .ok { Config.default with path := some "/list".toList } ∧
      (∃ fault, Config.load documentTree "/bytes".toList = .error (.unreadable (.encoding fault))) ∧
      Config.load documentTree "/number".toList = .error .foreignKey := by
  have hfile : documentTree.entry? "/list".toList = .ok (.file (Utf8.encode "[]".toList)) := rfl
  have htokens : Yaml.Token.ofText? "[]".toList = some [.flowSequence, .flowSequenceEnd] := by decide +kernel
  have hvalue : Value.ofText "[]".toList = .ok (.list []) := by
    unfold Value.ofText
    rw [htokens]
    rfl
  have hdocument : Config.Says (Utf8.encode "[]".toList) (.ok (.list [])) := ⟨_, Utf8.decode?_encode _, hvalue⟩
  refine ⟨hdocument, id, hfile, ?_, ⟨_, rfl⟩, ?_⟩
  · rw [Config.load_of_decodable hfile (Utf8.decode?_encode _)]
    exact ((Config.ofText_cases hvalue _).resolve_right fun h => h.1 rfl).2
  · decide +kernel

end AssetEmbed
