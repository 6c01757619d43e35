import Mathlib.Data.List.Nodup
import Mathlib.Data.List.Perm.Basic
import FieldQuery.Config.Build
import FieldQuery.Config.Load
import FieldQuery.Proofs.Toml.Document
import FieldQuery.Proofs.Toml.Integer

/-!
# Loaded settings are chosen settings

Settings can be loaded from a document or chosen one by one, and the two ways agree
(`Config.load_agrees_with_build`). A document is read as its assignments, and these are carried out
if no key is assigned twice (`Config.load_text_eq_ok_iff`). What is then set, key by key, are the
choices that the assignments stand for (`Config.setAll_entries`), and choices of different settings
can be made in any order (`Config.build_perm`).
-/

namespace FieldQuery

open Toml

/-! ## Settings in a document -/

/-- The key of a setting. -/
def Setting.key : Setting → String
  | maxDepth _ => "max_depth"
  | quoting _ => "field_quoting"

/-- The keys of all settings. -/
def Setting.keys : List String :=
  ["max_depth", "field_quoting"]

/-- What is written for a setting: the decimal numeral of the nesting limit, and the name of the
style of quoting as a text. -/
def Setting.scalar : Setting → Scalar
  | maxDepth depth => .word (toString depth).toList
  | quoting q => .text q.name

/-- What an assignment of a setting says. -/
def Setting.said (s : Setting) : String × Scalar :=
  (s.key, s.scalar)

/-- Whether the number of a setting, if it has one, is an integer of 64 bits with a sign. -/
def Setting.Fits : Setting → Prop
  | maxDepth depth => depth ≤ 9223372036854775807
  | quoting _ => True

/-- The entry that an assignment of a setting makes. -/
def Setting.entry (s : Setting) : String × Toml.Value :=
  (s.key, match s with
    | maxDepth depth => .integer depth
    | quoting q => .text q.name)

theorem Setting.binding?_said {s : Setting} (h : s.Fits) : binding? s.said = some s.entry := by
  cases s with
  | maxDepth depth =>
    have hread : integer? (toString depth).toList = some (depth : Int) :=
      (integer?_toString depth).trans (if_pos h)
    rw [binding?, said, scalar, Scalar.value?, hread]
    rfl
  | quoting q => rfl

theorem Setting.binding?_said_eq_none {s : Setting} (h : ¬ s.Fits) : binding? s.said = none := by
  cases s with
  | maxDepth depth =>
    have hread : integer? (toString depth).toList = none :=
      (integer?_toString depth).trans (if_neg h)
    rw [binding?, said, scalar, Scalar.value?, hread]
    rfl
  | quoting q => exact absurd trivial h

/-! ## Entries of a document -/

theorem mapM_binding?_cons_iff {said : String × Scalar} {others : List (String × Scalar)}
    {entries : Entries} :
    (said :: others).mapM binding? = some entries ↔
      ∃ value rest, binding? said = some (said.1, value) ∧ others.mapM binding? = some rest ∧
        entries = (said.1, value) :: rest := by
  rw [List.mapM_cons]
  refine ⟨?_, ?_⟩
  · intro h
    obtain ⟨entry, hentry, h⟩ := Option.bind_eq_some_iff.1 h
    obtain ⟨rest, hrest, h⟩ := Option.bind_eq_some_iff.1 h
    cases h
    obtain ⟨value, hvalue, rfl⟩ := Option.map_eq_some_iff.1 hentry
    exact ⟨value, rest, hentry, hrest, rfl⟩
  · rintro ⟨value, rest, hvalue, hrest, rfl⟩
    rw [hvalue, hrest]
    rfl

/-- The entries of assignments have the keys of the assignments, in their order. -/
theorem map_fst_of_mapM_binding? {said : List (String × Scalar)} {entries : Entries}
    (h : said.mapM binding? = some entries) : entries.map Prod.fst = said.map Prod.fst := by
  induction said generalizing entries with
  | nil => cases h; rfl
  | cons a said ih =>
    obtain ⟨value, rest, -, hrest, rfl⟩ := mapM_binding?_cons_iff.1 h
    rw [List.map_cons, List.map_cons, ih hrest]

theorem isSome_binding?_of_mapM {said : List (String × Scalar)} {entries : Entries}
    (h : said.mapM binding? = some entries) : ∀ a ∈ said, binding? a ≠ none := by
  induction said generalizing entries with
  | nil => exact nofun
  | cons a said ih =>
    obtain ⟨value, rest, hvalue, hrest, rfl⟩ := mapM_binding?_cons_iff.1 h
    intro b hb
    rcases List.mem_cons.1 hb with rfl | hb
    · simp [hvalue]
    · exact ih hrest b hb

theorem mapM_binding?_said {settings : List Setting} (h : ∀ s ∈ settings, s.Fits) :
    (settings.map Setting.said).mapM binding? = some (settings.map Setting.entry) := by
  induction settings with
  | nil => rfl
  | cons s settings ih =>
    refine mapM_binding?_cons_iff.2 ⟨s.entry.2, _, ?_, ih fun t ht => h t (.tail _ ht), rfl⟩
    exact Setting.binding?_said (h s (.head _))

namespace Config

/-- A document gives settings if each of its values can be read, no key is assigned twice, and each
entry is a setting. -/
theorem load_text_eq_ok_iff {d : Document} {config : Config} :
    load d.text = .ok config ↔
      ∃ entries, d.assignments.mapM binding? = some entries ∧
        (d.assignments.map Prod.fst).Nodup ∧ setAll {} entries = .ok config := by
  rw [load, statements?_text]
  cases hentries : d.assignments.mapM binding? with
  | none => simp
  | some entries =>
    have hexecute (final : Entries) : execute [] [] (Entries.statements entries) = .ok final ↔
        (d.assignments.map Prod.fst).Nodup ∧ final = entries := by
      have hnil : (([] : Entries).map Prod.fst).Nodup := List.nodup_nil
      rw [execute_statements_eq_ok_iff hnil, List.nil_append, map_fst_of_mapM_binding? hentries]
    simp only [Option.map_some, Option.some.injEq, exists_eq_left']
    cases hfinal : execute [] [] (Entries.statements entries) with
    | error path =>
      refine ⟨nofun, fun ⟨hnodup, _⟩ => ?_⟩
      have := (hexecute entries).2 ⟨hnodup, rfl⟩
      rw [hfinal] at this
      cases this
    | ok final =>
      obtain ⟨hnodup, rfl⟩ := (hexecute final).1 hfinal
      exact ⟨fun h => ⟨hnodup, h⟩, fun h => h.2⟩

/-! ## Setting and choosing -/

/-- The entries of settings are set as the settings are chosen. -/
theorem setAll_entries (config : Config) (settings : List Setting) :
    setAll config (settings.map Setting.entry) = .ok (settings.foldl choose config) := by
  induction settings generalizing config with
  | nil => rfl
  | cons s settings ih =>
    have hset : config.set s.entry.1 s.entry.2 = .ok (config.choose s) := by
      cases s with
      | maxDepth depth => simp [Setting.entry, Setting.key, set, choose]
      | quoting q => simp [Setting.entry, Setting.key, set, choose, choice?]
    rw [List.map_cons, setAll, hset, List.foldl_cons]
    exact ih (config.choose s)

/-- A key that is set is the key of a setting. -/
theorem key_mem_of_set {config config' : Config} {key : String} {value : Toml.Value}
    (h : config.set key value = .ok config') : key ∈ Setting.keys := by
  by_cases hdepth : key = "max_depth"
  · simp [Setting.keys, hdepth]
  · by_cases hquoting : key = "field_quoting"
    · simp [Setting.keys, hquoting]
    · simp [set, hdepth, hquoting] at h

theorem key_mem_of_setAll {config config' : Config} {entries : Entries}
    (h : setAll config entries = .ok config') :
    ∀ key ∈ entries.map Prod.fst, key ∈ Setting.keys := by
  induction entries generalizing config with
  | nil => exact nofun
  | cons entry entries ih =>
    rw [setAll] at h
    split at h
    · next hset =>
      intro key hkey
      rcases List.mem_cons.1 hkey with rfl | hkey
      · exact key_mem_of_set hset
      · exact ih h key hkey
    · cases h

/-- Choices of different settings can be made in any order. -/
theorem choose_comm (config : Config) {s t : Setting} (h : s.key = t.key → s = t) :
    (config.choose s).choose t = (config.choose t).choose s := by
  cases s with
  | maxDepth depth =>
    cases t with
    | maxDepth depth' => rw [h rfl]
    | quoting q => rfl
  | quoting q =>
    cases t with
    | maxDepth depth => rfl
    | quoting q' => rw [h rfl]

theorem build_perm {settings settings' : List Setting} (h : settings.Perm settings')
    (hkeys : (settings.map Setting.key).Nodup) : build settings = build settings' := by
  refine h.foldl_eq' (fun s hs t ht config => choose_comm config ?_) _
  exact List.inj_on_of_nodup_map hkeys hs ht

theorem exists_error_of_not_ok {s : String} (h : ∀ config, load s ≠ .ok config) :
    ∃ e, load s = .error e := by
  cases hs : load s with
  | error e => exact ⟨e, rfl⟩
  | ok config => exact absurd hs (h config)

/-! ## Loading and choosing -/

section

variable {settings : List Setting} {d : Document}

/-- Assignments of settings in any order are the assignments of the settings in another order. -/
theorem exists_order_of_said (hd : d.assignments.Perm (settings.map Setting.said)) :
    ∃ order : List Setting, d.assignments = order.map Setting.said ∧ order.Perm settings := by
  have := congrFun (congrFun (List.eq_map_comp_perm Setting.said) d.assignments) settings
  exact this.mpr hd

/-- Settings whose numbers fit are loaded in any order, as if they were chosen in theirs. -/
theorem load_eq_build (hkeys : (settings.map Setting.key).Nodup)
    (hd : d.assignments.Perm (settings.map Setting.said)) (hfit : ∀ s ∈ settings, s.Fits) :
    load d.text = .ok (build settings) := by
  obtain ⟨order, hassignments, horder⟩ := exists_order_of_said hd
  have hread : d.assignments.mapM binding? = some (order.map Setting.entry) := by
    rw [hassignments]
    exact mapM_binding?_said fun s hs => hfit s (horder.subset hs)
  rw [build_perm horder.symm hkeys]
  refine load_text_eq_ok_iff.2 ⟨_, hread, ?_, setAll_entries {} order⟩
  rw [hassignments, List.map_map]
  exact ((horder.map Setting.key).nodup_iff).2 hkeys

/-- No settings are loaded if a number does not fit. -/
theorem load_ne_ok_of_not_fits (hd : d.assignments.Perm (settings.map Setting.said)) {s : Setting}
    (hs : s ∈ settings) (hfit : ¬ s.Fits) (config : Config) : load d.text ≠ .ok config := by
  intro hload
  obtain ⟨entries, hentries, -⟩ := load_text_eq_ok_iff.1 hload
  have hmem : s.said ∈ d.assignments := hd.symm.subset (List.mem_map_of_mem hs)
  exact isSome_binding?_of_mapM hentries s.said hmem (Setting.binding?_said_eq_none hfit)

/-- No settings are loaded if a line is added that assigns to a key that is unknown or taken. -/
theorem load_insert_ne_ok (hd : d.assignments.Perm (settings.map Setting.said)) (i : Nat)
    {line : Line} {a : Toml.Assignment} (ha : line.assignment? = some a)
    (hkey : a.key.name ∉ Setting.keys ∨ a.key.name ∈ settings.map Setting.key) (config : Config) :
    load (d.insert i line).text ≠ .ok config := by
  intro hload
  obtain ⟨entries, hentries, hnodup, hset⟩ := load_text_eq_ok_iff.1 hload
  have hinsert : (d.insert i line).assignments.Perm (a.said :: settings.map Setting.said) :=
    (d.assignments_insert_perm i ha).trans (hd.cons a.said)
  have hkeys : ((d.insert i line).assignments.map Prod.fst).Perm
      (a.key.name :: settings.map Setting.key) := by
    have := hinsert.map Prod.fst
    rw [List.map_cons, List.map_map] at this
    exact this
  rcases hkey with hunknown | hrepeated
  · refine hunknown (key_mem_of_setAll hset _ ?_)
    rw [map_fst_of_mapM_binding? hentries]
    exact hkeys.symm.subset (.head _)
  · exact (List.nodup_cons.1 (hkeys.nodup_iff.1 hnodup)).1 hrepeated

end

/-- **Loaded settings are chosen settings.** Of a document that assigns some settings, each once and
in any order, one loads what is built by choosing the same settings, unless a number has more than
64 bits with a sign; then nothing is loaded. Nothing is loaded either if a line is added to such a
document, anywhere, that assigns to a key of no setting or to a key that is assigned already. -/
theorem load_agrees_with_build (settings : List Setting) (d : Document)
    (hkeys : (settings.map Setting.key).Nodup)
    (hd : d.assignments.Perm (settings.map Setting.said)) :
    ((∀ s ∈ settings, s.Fits) → load d.text = .ok (build settings)) ∧
    ((∃ s ∈ settings, ¬ s.Fits) → ∃ e, load d.text = .error e) ∧
    ∀ (i : Nat) (line : Line) (a : Toml.Assignment), line.assignment? = some a →
      a.key.name ∉ Setting.keys ∨ a.key.name ∈ settings.map Setting.key →
      ∃ e, load (d.insert i line).text = .error e := by
  refine ⟨load_eq_build hkeys hd, ?_, ?_⟩
  · rintro ⟨s, hs, hfit⟩
    exact exists_error_of_not_ok (load_ne_ok_of_not_fits hd hs hfit)
  · intro i line a ha hkey
    exact exists_error_of_not_ok (load_insert_ne_ok hd i ha hkey)

/-- A limit behind a style of quoting is loaded, unless it is assigned once more or has too many
bits. -/
theorem load_agrees_with_build_behind_quoting :
    load "# Limits\r\n\nfield_quoting = \"ansi\"\nmax_depth=8" =
      .ok { maxDepth := 8, quoting := .ansi } ∧
    (∃ e, load "# Limits\r\n\nmax_depth=9\nfield_quoting = \"ansi\"\nmax_depth=8" = .error e) ∧
    ∃ e, load "max_depth=9223372036854775808" = .error e := by
  let depth (w : List Char) (h : w ≠ [] ∧ ∀ c ∈ w, WordChar c) : Toml.Assignment :=
    { key := .bare "max_depth".toList (by decide), value := .word w h }
  let quoting : Toml.Assignment :=
    { key := .bare "field_quoting".toList (by decide)
      before := ⟨[' '], by decide⟩
      after := ⟨[' '], by decide⟩
      value := .basic ("ansi".toList.pmap .plain (by decide)) }
  let small : Document :=
    { lines := [{ comment? := some ⟨" Limits".toList, by decide⟩, lineEnd := .crlf }, {},
        { assignment? := some quoting }, { assignment? := some (depth ['8'] (by decide)) }] }
  let large : Document :=
    { lines := [{ assignment? := some (depth "9223372036854775808".toList (by decide)) }] }
  have hsmall : small.assignments.Perm ([.maxDepth 8, .quoting .ansi].map Setting.said) :=
    .swap _ _ _
  obtain ⟨hload, -, hmore⟩ :=
    load_agrees_with_build [.maxDepth 8, .quoting .ansi] small (by decide) hsmall
  obtain ⟨-, hrefuse, -⟩ :=
    load_agrees_with_build [.maxDepth 9223372036854775808] large (by decide) (.refl _)
  refine ⟨hload (by simp [Setting.Fits]), ?_, hrefuse (by simp [Setting.Fits])⟩
  exact hmore 2 { assignment? := some (depth ['9'] (by decide)) } _ rfl (.inr (by decide))

end Config

end FieldQuery
