/-
Type names of registered rules.

A batch of rules is registered with a list of the names in use, which is
collected from the table when the batch starts and grows with every new name.
The invariant is that this list and the table hold the same names: `Tracks`.
It makes every claimed name new to the table, and it makes the list that is
collected for a next batch as good as the one that is at hand when a batch
ends, so that batches can be joined (`withRules_append`).  `type_names_registered`
says what follows for any sequence of batches.  Suffixes have no end here; with a
counter of 32 bits this is so for fewer than `2 ^ 31 - 1` names.
-/
import GrammarRecords.Proofs.Render.Escaping
import GrammarRecords.Proofs.Table

namespace GrammarRecords
namespace Renderer

open Names

/-- The names in use are those of the table. -/
def Tracks (r : Renderer) (used : List String) : Prop :=
  ∀ name, name ∈ used ↔ name ∈ r.typeNames.values

theorem tracks_values (r : Renderer) : Tracks r r.typeNames.values := fun _ => Iff.rfl

/-! ## One rule -/

/-- The renderer after a rule without a name was given one. -/
def registerNew (r : Renderer) (used : List String) (rule : String) : Renderer :=
  { r with typeNames := r.typeNames.insert rule (claim used r.escape (r.typeBase rule)).1 }

def usedAfter (r : Renderer) (used : List String) (rule : String) : List String :=
  (claim used r.escape (r.typeBase rule)).2

theorem registerAll_known {r : Renderer} {rule : String} (h : rule ∈ r.typeNames.keys)
    (used rest : List String) :
    r.registerAll used (rule :: rest) = r.registerAll used rest := by
  rw [registerAll, if_pos (Table.contains_iff.mpr h)]

theorem registerAll_new {r : Renderer} {rule : String} (h : rule ∉ r.typeNames.keys)
    (used rest : List String) :
    r.registerAll used (rule :: rest) =
      (r.registerNew used rule).registerAll (r.usedAfter used rule) rest := by
  rw [registerAll, if_neg (fun e => h (Table.contains_iff.mp e))]
  rfl

theorem registerNew_congr {used used' : List String} (h : ∀ x, x ∈ used ↔ x ∈ used')
    (r : Renderer) (rule : String) : r.registerNew used rule = r.registerNew used' rule := by
  unfold registerNew
  rw [claim_congr r.separates_escape h]

theorem usedAfter_congr {used used' : List String} (h : ∀ x, x ∈ used ↔ x ∈ used')
    (r : Renderer) (rule x : String) :
    x ∈ r.usedAfter used rule ↔ x ∈ r.usedAfter used' rule := by
  unfold usedAfter
  rw [claim_taken, claim_taken, claim_congr r.separates_escape h, List.mem_cons, List.mem_cons, h x]

theorem tracks_registerNew {r : Renderer} {used : List String} {rule : String}
    (h : Tracks r used) (hnew : rule ∉ r.typeNames.keys) :
    Tracks (r.registerNew used rule) (r.usedAfter used rule) := by
  intro name
  unfold registerNew usedAfter
  rw [claim_taken, Table.values_insert_of_not_mem _ hnew, List.mem_cons, List.mem_append,
    List.mem_singleton, h name]
  exact or_comm

theorem values_nodup_registerNew {r : Renderer} {used : List String} {rule : String}
    (h : Tracks r used) (hnew : rule ∉ r.typeNames.keys) (hnodup : r.typeNames.values.Nodup) :
    (r.registerNew used rule).typeNames.values.Nodup := by
  have hfresh : (claim used r.escape (r.typeBase rule)).1 ∉ r.typeNames.values := by
    rw [← h]
    exact claim_not_mem r.separates_escape used (r.typeBase rule)
  unfold registerNew
  rw [Table.values_insert_of_not_mem _ hnew]
  refine List.Nodup.append hnodup (List.nodup_singleton _) ?_
  intro name hold hone
  rw [List.mem_singleton] at hone
  exact hfresh (hone ▸ hold)

theorem get?_registerNew {r : Renderer} {rule next name : String}
    (hnew : next ∉ r.typeNames.keys) (h : r.typeNames.get? rule = some name)
    (used : List String) : (r.registerNew used next).typeNames.get? rule = some name := by
  have hne : rule ≠ next := by
    intro e
    subst e
    exact hnew (Table.mem_keys_iff.mpr ⟨name, h⟩)
  unfold registerNew
  rw [Table.get?_insert_of_ne r.typeNames _ hne, h]

/-! ## A batch of rules -/

/-- What every new name preserves, a batch preserves. -/
theorem registerAll_preserves {P : Renderer → List String → Prop}
    (hstep : ∀ {r used rule}, rule ∉ r.typeNames.keys → P r used →
      P (r.registerNew used rule) (r.usedAfter used rule))
    {r : Renderer} (used : List String) (h : P r used) (rules : List String) :
    ∃ used', P (r.registerAll used rules) used' := by
  induction rules generalizing r used with
  | nil => exact ⟨used, h⟩
  | cons rule rest ih =>
      by_cases hrule : rule ∈ r.typeNames.keys
      · rw [registerAll_known hrule]
        exact ih used h
      · rw [registerAll_new hrule]
        exact ih _ (hstep hrule h)

theorem registerAll_congr {used used' : List String} (h : ∀ x, x ∈ used ↔ x ∈ used')
    (r : Renderer) (rules : List String) :
    r.registerAll used rules = r.registerAll used' rules := by
  induction rules generalizing r used used' with
  | nil => rfl
  | cons rule rest ih =>
      by_cases hrule : rule ∈ r.typeNames.keys
      · rw [registerAll_known hrule, registerAll_known hrule, ih h]
      · rw [registerAll_new hrule, registerAll_new hrule, registerNew_congr h r rule]
        exact ih (usedAfter_congr h r rule) _

/-- Registering two lists in one go collects the names in use between them by itself. -/
theorem registerAll_append {r : Renderer} {used : List String} (h : Tracks r used)
    (first second : List String) :
    r.registerAll used (first ++ second) = (r.registerAll used first).withRules second := by
  induction first generalizing r used with
  | nil => exact registerAll_congr h r second
  | cons rule rest ih =>
      rw [List.cons_append]
      by_cases hrule : rule ∈ r.typeNames.keys
      · rw [registerAll_known hrule, registerAll_known hrule, ih h]
      · rw [registerAll_new hrule, registerAll_new hrule, ih (tracks_registerNew h hrule)]

theorem withRules_append (r : Renderer) (first second : List String) :
    r.withRules (first ++ second) = (r.withRules first).withRules second :=
  registerAll_append r.tracks_values first second

theorem values_nodup_registerAll {r : Renderer} {used : List String} (h : Tracks r used)
    (hnodup : r.typeNames.values.Nodup) (rules : List String) :
    (r.registerAll used rules).typeNames.values.Nodup := by
  obtain ⟨_, -, hrun⟩ := registerAll_preserves
    (P := fun r used => Tracks r used ∧ r.typeNames.values.Nodup)
    (fun hnew hp => ⟨tracks_registerNew hp.1 hnew, values_nodup_registerNew hp.1 hnew hp.2⟩)
    used ⟨h, hnodup⟩ rules
  exact hrun

/-- A name once given stays. -/
theorem get?_registerAll {r : Renderer} {rule name : String}
    (h : r.typeNames.get? rule = some name) (used rules : List String) :
    (r.registerAll used rules).typeNames.get? rule = some name := by
  obtain ⟨_, hrun⟩ := registerAll_preserves
    (P := fun r _ => r.typeNames.get? rule = some name)
    (fun hnew hp => get?_registerNew hnew hp _) used h rules
  exact hrun

/-- Every rule of a batch has a name after it. -/
theorem get?_registerAll_of_mem {rules : List String} {rule : String} (h : rule ∈ rules)
    (r : Renderer) (used : List String) :
    ∃ name, (r.registerAll used rules).typeNames.get? rule = some name := by
  induction rules generalizing r used with
  | nil => exact absurd h List.not_mem_nil
  | cons next rest ih =>
      rcases List.mem_cons.mp h with rfl | hrest
      · by_cases hknown : rule ∈ r.typeNames.keys
        · obtain ⟨name, hname⟩ := Table.mem_keys_iff.mp hknown
          exact ⟨name, get?_registerAll hname used _⟩
        · rw [registerAll_new hknown]
          exact ⟨_, get?_registerAll (Table.get?_insert_self r.typeNames rule _) _ rest⟩
      · by_cases hknown : next ∈ r.typeNames.keys
        · rw [registerAll_known hknown]
          exact ih hrest r used
        · rw [registerAll_new hknown]
          exact ih hrest _ _

/-! ## A sequence of batches -/

def afterBatches (config : RenderConfig) (batches : List (List String)) : Renderer :=
  batches.foldl withRules (ofConfig config)

theorem foldl_withRules (r : Renderer) (batches : List (List String)) :
    batches.foldl withRules r = r.withRules batches.flatten := by
  induction batches generalizing r with
  | nil => rfl
  | cons batch rest ih =>
      rw [List.foldl_cons, List.flatten_cons, withRules_append, ih]

theorem afterBatches_eq (config : RenderConfig) (batches : List (List String)) :
    afterBatches config batches = (ofConfig config).withRules batches.flatten :=
  foldl_withRules _ batches

theorem afterBatches_append (config : RenderConfig) (batches later : List (List String)) :
    afterBatches config (batches ++ later) =
      (afterBatches config batches).withRules later.flatten := by
  rw [afterBatches_eq, afterBatches_eq, List.flatten_append, withRules_append]

theorem values_nodup_afterBatches (config : RenderConfig) (batches : List (List String)) :
    (afterBatches config batches).typeNames.values.Nodup := by
  rw [afterBatches_eq]
  refine values_nodup_registerAll (tracks_values _) ?_ batches.flatten
  exact List.nodup_nil

theorem get?_afterBatches (config : RenderConfig) {batches : List (List String)} {rule : String}
    (h : rule ∈ batches.flatten) :
    ∃ name, (afterBatches config batches).typeNames.get? rule = some name := by
  rw [afterBatches_eq]
  exact get?_registerAll_of_mem h _ _

theorem typeName_of_get? {r : Renderer} {rule name : String}
    (h : r.typeNames.get? rule = some name) : r.typeName rule = name := by
  rw [typeName, h]

/--
After any sequence of batches the registered rules have distinct type names,
later batches leave these names as they are, and the table of names is that of
one batch with all the rules.
-/
theorem type_names_registered (config : RenderConfig) (batches later : List (List String)) :
    (∀ a ∈ batches.flatten, ∀ b ∈ batches.flatten, a ≠ b →
      (afterBatches config batches).typeName a ≠ (afterBatches config batches).typeName b) ∧
    (∀ a ∈ batches.flatten, ∃ name,
      (afterBatches config batches).typeNames.get? a = some name ∧
        (afterBatches config (batches ++ later)).typeNames.get? a = some name) ∧
    (afterBatches config batches).typeNames =
      ((ofConfig config).withRules batches.flatten).typeNames := by
  refine ⟨?_, ?_, by rw [afterBatches_eq]⟩
  · intro a ha b hb hne e
    obtain ⟨x, hx⟩ := get?_afterBatches config ha
    obtain ⟨y, hy⟩ := get?_afterBatches config hb
    rw [typeName_of_get? hx, typeName_of_get? hy] at e
    subst e
    exact hne (Table.key_unique (values_nodup_afterBatches config batches) hx hy)
  · intro a ha
    obtain ⟨name, hname⟩ := get?_afterBatches config ha
    refine ⟨name, hname, ?_⟩
    rw [afterBatches_append]
    exact get?_registerAll hname _ _

/-- The Rust dialect with the word reserved that a first suffix leads to. -/
def suffixReserved : RenderConfig :=
  (RenderConfig.default.withDialect .rust).withKeywords (.ofList ["Foo1"])

theorem type_names_registered_foo :
    (afterBatches suffixReserved [["foo", "_foo", "foo"], ["Foo"]]).typeNames.entries =
        [("foo", "Foo"), ("_foo", "r#Foo1"), ("Foo", "Foo2")] ∧
      (afterBatches suffixReserved [["foo", "_foo", "foo"], ["Foo"]]).typeName "_foo" ≠
        (afterBatches suffixReserved [["foo", "_foo", "foo"], ["Foo"]]).typeName "Foo" :=
  ⟨by decide +kernel,
    (type_names_registered suffixReserved [["foo", "_foo", "foo"], ["Foo"]] []).1
      "_foo" (by decide) "Foo" (by decide) (by decide)⟩

end Renderer
end GrammarRecords
