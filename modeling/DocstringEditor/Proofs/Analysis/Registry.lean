import DocstringEditor.Proofs.Analysis.Query
import Mathlib.Data.List.Induction
import Mathlib.Data.List.Pairwise
import Mathlib.Data.String.Basic

namespace DocstringEditor.Analysis

theorem Source.parse_ne_unsupportedBackend (parse : Parse) (text : Text) (name : String) :
    Source.parse parse text ≠ .error (.unsupportedBackend name) := by
  rw [Source.parse]
  split
  · exact nofun
  · exact nofun
  · split
    · exact nofun
    · dsimp only
      split <;> exact nofun

theorem Analyzer.create_ne_unsupportedBackend {parse : Parse} (hparse : parse.Faithful)
    (b : Backend) (text : Text) (name : String) :
    create parse b text ≠ .error (.unsupportedBackend name) := by
  intro h
  cases hsource : Source.parse parse text with
  | error e =>
      rw [create, hsource] at h
      obtain rfl : e = .unsupportedBackend name := Except.error.inj h
      exact Source.parse_ne_unsupportedBackend parse text name hsource
  | ok s =>
      obtain ⟨a, hcreate, -⟩ := find_error_iff hparse hsource b
      rw [hcreate] at h
      cases h

namespace Registry

inductive Call (κ : Type)
  | register (name : String) (b : κ)
  | registerAlias (name target : String)

variable {κ α : Type} {calls : List (Call κ)} {name n c : String}

namespace Call

def apply (r : Registry κ) : Call κ → Registry κ
  | register name b => r.register name b
  | registerAlias name target => r.registerAlias name target

def backend? (name : String) : Call κ → Option κ
  | register n b => if name = lower n then some b else none
  | registerAlias _ _ => none

def target? (name : String) : Call κ → Option String
  | register _ _ => none
  | registerAlias n target => if name = lower n then some (lower target) else none

end Call

def after (calls : List (Call κ)) : Registry κ := calls.foldl Call.apply {}

def lastBackend? (calls : List (Call κ)) (name : String) : Option κ :=
  calls.reverse.findSome? (Call.backend? name)

def lastTarget? (calls : List (Call κ)) (name : String) : Option String :=
  calls.reverse.findSome? (Call.target? name)

theorem lookup_cons_ite (n m : String) (value : α) (table : List (String × α)) :
    ((m, value) :: table).lookup n = if n = m then some value else table.lookup n := by
  rw [List.lookup_cons]
  by_cases h : n = m
  · rw [if_pos h, beq_iff_eq.2 h]
  · rw [if_neg h, beq_false_of_ne h]

theorem lookup_insert (name n : String) (value : α) (table : List (String × α)) :
    (insert name value table).lookup n = if n = name then some value else table.lookup n := by
  fun_induction insert name value table with
  | case1 => exact lookup_cons_ite n name value []
  | case2 => exact lookup_cons_ite n name value _
  | case3 v rest =>
      rw [lookup_cons_ite, lookup_cons_ite]
      split <;> rfl
  | case4 m v rest _ hne ih =>
      rw [lookup_cons_ite, lookup_cons_ite, ih]
      by_cases hn : n = m
      · rw [if_pos hn, if_pos hn, if_neg (hn ▸ Ne.symm hne)]
      · rw [if_neg hn, if_neg hn]

theorem mem_keys_iff {table : List (String × α)} :
    n ∈ table.map (·.1) ↔ (table.lookup n).isSome := by
  rw [List.lookup_isSome_iff, List.mem_map]
  exact exists_congr fun e => and_congr_right fun _ => by rw [beq_iff_eq, eq_comm]

theorem pairwise_insert {table : List (String × α)} (h : (table.map (·.1)).Pairwise (· < ·))
    (name : String) (value : α) : ((insert name value table).map (·.1)).Pairwise (· < ·) := by
  fun_induction insert name value table with
  | case1 => exact List.pairwise_singleton _ _
  | case2 m v rest hlt => exact List.pairwise_cons_cons_iff_of_trans.2 ⟨hlt, h⟩
  | case3 => exact h
  | case4 m v rest hlt hne ih =>
      obtain ⟨hm, hrest⟩ := List.pairwise_cons.1 h
      refine List.pairwise_cons.2 ⟨fun n hn => ?_, ih hrest⟩
      rw [mem_keys_iff, lookup_insert] at hn
      split at hn
      · subst_vars
        exact lt_of_le_of_ne (not_lt.1 hlt) (Ne.symm hne)
      · exact hm n (mem_keys_iff.2 hn)

theorem lookup_backends_apply (r : Registry κ) (call : Call κ) (n : String) :
    (Call.apply r call).backends.lookup n = (call.backend? n).or (r.backends.lookup n) := by
  cases call with
  | register name b =>
      rw [Call.apply, register, lookup_insert, Call.backend?]
      split <;> rfl
  | registerAlias name target => rfl

theorem lookup_aliases_apply (r : Registry κ) (call : Call κ) (n : String) :
    (Call.apply r call).aliases.lookup n = (call.target? n).or (r.aliases.lookup n) := by
  cases call with
  | register name b => rfl
  | registerAlias name target =>
      rw [Call.apply, registerAlias, lookup_insert, Call.target?]
      split <;> rfl

theorem after_concat (calls : List (Call κ)) (call : Call κ) :
    after (calls ++ [call]) = Call.apply (after calls) call := List.foldl_append

theorem lookup_after {β : Type} {table : Registry κ → List (String × β)}
    {put? : Call κ → Option β} (hempty : (table {}).lookup n = none)
    (hstep : ∀ r call, (table (Call.apply r call)).lookup n =
      (put? call).or ((table r).lookup n)) (calls : List (Call κ)) :
    (table (after calls)).lookup n = calls.reverse.findSome? put? := by
  induction calls using List.reverseRecOn with
  | nil => exact hempty
  | append_singleton calls call ih =>
      rw [after_concat, hstep, ih, List.reverse_append, List.reverse_singleton,
        List.singleton_append, List.findSome?_cons]
      cases put? call <;> rfl

theorem lookup_backends_after (calls : List (Call κ)) (n : String) :
    (after calls).backends.lookup n = lastBackend? calls n :=
  lookup_after rfl (fun r call => lookup_backends_apply r call n) calls

theorem lookup_aliases_after (calls : List (Call κ)) (n : String) :
    (after calls).aliases.lookup n = lastTarget? calls n :=
  lookup_after rfl (fun r call => lookup_aliases_apply r call n) calls

theorem pairwise_names_after (calls : List (Call κ)) : (after calls).names.Pairwise (· < ·) := by
  induction calls using List.reverseRecOn with
  | nil => exact .nil
  | append_singleton calls call ih =>
      rw [after_concat]
      cases call with
      | register name b => exact pairwise_insert ih _ b
      | registerAlias name target => exact ih

theorem register_mem_of_lastBackend? {b : κ} (h : lastBackend? calls n = some b) :
    ∃ name, Call.register name b ∈ calls ∧ lower name = n := by
  obtain ⟨call, hmem, hcall⟩ := List.exists_of_findSome?_eq_some h
  cases call with
  | registerAlias => cases hcall
  | register name b' =>
      rw [Call.backend?] at hcall
      split at hcall
      · obtain rfl := Option.some.inj hcall
        exact ⟨name, List.mem_reverse.1 hmem, Eq.symm ‹_›⟩
      · cases hcall

theorem lastBackend?_isSome_iff :
    (lastBackend? calls n).isSome ↔ ∃ name b, Call.register name b ∈ calls ∧ lower name = n := by
  constructor
  · intro h
    obtain ⟨b, hb⟩ := Option.isSome_iff_exists.1 h
    obtain ⟨name, hname⟩ := register_mem_of_lastBackend? hb
    exact ⟨name, b, hname⟩
  · rintro ⟨name, b, hmem, rfl⟩
    refine List.findSome?_isSome_iff.2 ⟨_, List.mem_reverse.2 hmem, ?_⟩
    rw [Call.backend?, if_pos rfl]
    rfl

theorem mem_names_after :
    n ∈ (after calls).names ↔ ∃ name b, Call.register name b ∈ calls ∧ lower name = n := by
  rw [← lastBackend?_isSome_iff, ← lookup_backends_after]
  exact mem_keys_iff

/-- The name that a lower-case name is taken for. -/
def meant (calls : List (Call κ)) (name : String) : String :=
  (lastTarget? calls name).getD name

theorem canonical?_after (calls : List (Call κ)) (name : String) :
    (after calls).canonical? name =
      if (lastBackend? calls (meant calls (lower name))).isSome then
        some (meant calls (lower name))
      else none := by
  rw [canonical?, lookup_aliases_after, lookup_backends_after, meant]

theorem canonical?_eq_some_iff : (after calls).canonical? name = some c ↔
    meant calls (lower name) = c ∧ (lastBackend? calls c).isSome := by
  rw [canonical?_after, Option.ite_none_right_eq_some, Option.some.injEq, and_comm]
  exact and_congr_right fun h => by rw [h]

theorem backend?_after (calls : List (Call κ)) (name : String) :
    (after calls).backend? name = lastBackend? calls (meant calls (lower name)) := by
  rw [backend?, canonical?_after]
  split
  · exact lookup_backends_after _ _
  · exact (Option.not_isSome_iff_eq_none.1 ‹_›).symm

theorem toLower_toLower (c : Char) : c.toLower.toLower = c.toLower := by
  by_cases h : c.val ≥ 'A'.val ∧ c.val ≤ 'Z'.val
  · have hlower : ¬(c.toLower.val ≥ 'A'.val ∧ c.toLower.val ≤ 'Z'.val) := by
      have hval : c.toLower.val = c.val + ('a'.val - 'A'.val) := congrArg Char.val (dif_pos h)
      rw [hval]
      simp only [ge_iff_le, UInt32.le_iff_toNat_le, UInt32.toNat_add, UInt32.toNat_sub] at h ⊢
      simp at h ⊢
      omega
    exact dif_neg hlower
  · have hlower : c.toLower = c := dif_neg h
    rw [hlower, hlower]

theorem lower_lower (name : String) : lower (lower name) = lower name := by
  simp only [lower, String.toList_ofList, List.map_map]
  congr 1
  exact List.map_congr_left fun c _ => toLower_toLower c

theorem lower_of_lastBackend? (h : (lastBackend? calls n).isSome) : lower n = n := by
  obtain ⟨name, b, -, rfl⟩ := lastBackend?_isSome_iff.1 h
  exact lower_lower name

theorem createWith_of_canonical?_none {r : Registry κ} {start : κ → Text → Except Error α}
    {text : Text} (h : r.canonical? name = none) :
    r.createWith start name text = .error (.unsupportedBackend name) := by
  rw [createWith, backend?, h]
  rfl

theorem createWith_of_canonical? (h : (after calls).canonical? name = some c) :
    ∃ b, lastBackend? calls c = some b ∧ ∀ (start : κ → Text → Except Error α) (text : Text),
      (after calls).createWith start name text = start b text := by
  obtain ⟨hname, hsome⟩ := canonical?_eq_some_iff.1 h
  obtain ⟨b, hb⟩ := Option.isSome_iff_exists.1 hsome
  exact ⟨b, hb, fun start text => by rw [createWith, backend?_after, hname, hb]⟩

/-- What a registry answers depends on the last calls for each name alone. It lists the names that
backends were put under, and starts the last backend of the name that a name is taken for. Backends
that never blame a name leave this to the names that nothing is found under. -/
theorem after_answers (calls : List (Call κ)) :
    (after calls).names.Pairwise (· < ·) ∧
    (∀ n, n ∈ (after calls).names ↔ ∃ name b, Call.register name b ∈ calls ∧ lower name = n) ∧
    (∀ name name', lower name = lower name' →
      (after calls).canonical? name = (after calls).canonical? name') ∧
    (∀ name c, (after calls).canonical? name = some c → c ∈ (after calls).names ∧
      ∃ b, lastBackend? calls c = some b ∧ ∀ (start : κ → Text → Except Error α) (text : Text),
        (after calls).createWith start name text = start b text) ∧
    (∀ (start : κ → Text → Except Error α) (name : String) (text : Text),
      ((after calls).canonical? name = none →
        (after calls).createWith start name text = .error (.unsupportedBackend name)) ∧
      ((∀ m b, Call.register m b ∈ calls → start b text ≠ .error (.unsupportedBackend name)) →
        ((after calls).createWith start name text = .error (.unsupportedBackend name) ↔
          (after calls).canonical? name = none))) ∧
    ∀ calls' : List (Call κ), (∀ n, lastBackend? calls n = lastBackend? calls' n) →
      (∀ n, lastTarget? calls n = lastTarget? calls' n) → ∀ name,
        (after calls).canonical? name = (after calls').canonical? name ∧
        ∀ (start : κ → Text → Except Error α) (text : Text),
          (after calls).createWith start name text =
            (after calls').createWith start name text := by
  refine ⟨pairwise_names_after calls, fun n => mem_names_after, fun name name' h => ?_,
    fun name c h => ⟨?_, createWith_of_canonical? h⟩,
    fun start name text => ⟨createWith_of_canonical?_none, fun h => ?_⟩,
    fun calls' hbackend htarget name => ?_⟩
  · rw [canonical?_after, canonical?_after, h]
  · exact mem_names_after.2 (lastBackend?_isSome_iff.1 (canonical?_eq_some_iff.1 h).2)
  · refine ⟨fun herror => ?_, createWith_of_canonical?_none⟩
    cases hcanonical : (after calls).canonical? name with
    | none => rfl
    | some c =>
        obtain ⟨b, hb, hstart⟩ := createWith_of_canonical? hcanonical
        obtain ⟨m, hmem, -⟩ := register_mem_of_lastBackend? hb
        exact absurd (hstart start text ▸ herror) (h m b hmem)
  · have hmeant : meant calls = meant calls' := funext fun n => by rw [meant, meant, htarget]
    refine ⟨?_, fun start text => ?_⟩
    · rw [canonical?_after, canonical?_after, hmeant, hbackend]
    · rw [createWith, createWith, backend?_after, backend?_after, hmeant, hbackend]

theorem after_answers_shadowed : ∃ calls calls' : List (Call Backend),
    calls = [.registerAlias "B" "c", .register "c" .symbols, .register "b" .symbols,
      .register "C" .structural] ∧
    calls' = [.register "C" .structural, .register "B" .symbols, .registerAlias "b" "C"] ∧
    (∀ n, lastBackend? calls n = lastBackend? calls' n) ∧
    (∀ n, lastTarget? calls n = lastTarget? calls' n) ∧
    (after calls).names = ["b", "c"] ∧
    (lower "B" = lower "b" ∧ (after calls).canonical? "B" = (after calls).canonical? "b") ∧
    (∃ b, lastBackend? calls "c" = some b ∧
      ∀ text, (after calls).create python "B" text = Analyzer.create python b text) ∧
    ((∀ text, (after calls).create python "D" text = .error (.unsupportedBackend "D")) ∧
      (after calls).canonical? "D" = none) ∧
    ∀ name, (after calls).canonical? name = (after calls').canonical? name ∧
      ∀ text, (after calls).create python name text = (after calls').create python name text := by
  obtain ⟨calls, hcalls⟩ : ∃ calls : List (Call Backend), calls =
      [.registerAlias "B" "c", .register "c" .symbols, .register "b" .symbols,
        .register "C" .structural] := ⟨_, rfl⟩
  obtain ⟨calls', hcalls'⟩ : ∃ calls : List (Call Backend), calls =
      [.register "C" .structural, .register "B" .symbols, .registerAlias "b" "C"] := ⟨_, rfl⟩
  have hlowers : lower "B" = "b" ∧ lower "b" = "b" ∧ lower "C" = "c" ∧ lower "c" = "c" := by
    decide
  have hbackend (n : String) : lastBackend? calls n = lastBackend? calls' n := by
    rw [hcalls, hcalls']
    by_cases hn : n = "b" <;> by_cases hn' : n = "c" <;>
      simp [lastBackend?, List.findSome?_cons, Call.backend?, hlowers, hn, hn']
  have htarget (n : String) : lastTarget? calls n = lastTarget? calls' n := by
    rw [hcalls, hcalls']
    by_cases hn : n = "b" <;>
      simp [lastTarget?, List.findSome?_cons, Call.target?, hlowers, hn]
  obtain ⟨-, -, hlower, hfound, herror, hsame⟩ := @after_answers Backend Analyzer calls
  have hnone : (after calls).canonical? "D" = none := by
    rw [hcalls]
    decide +kernel
  obtain ⟨-, b, hb, hstart⟩ := hfound "B" "c" (by rw [hcalls]; decide +kernel)
  have hcase : lower "B" = lower "b" := hlowers.1.trans hlowers.2.1.symm
  refine ⟨calls, calls', hcalls, hcalls', hbackend, htarget, by rw [hcalls]; decide +kernel,
    ⟨hcase, hlower _ _ hcase⟩, ⟨b, hb, hstart _⟩, ⟨fun text => ?_, hnone⟩, fun name => ?_⟩
  · exact ((herror (Analyzer.create python) "D" text).2 fun _ b _ =>
      Analyzer.create_ne_unsupportedBackend python_faithful b text "D").2 hnone
  · obtain ⟨hcanonical, hcreate⟩ := hsame calls' hbackend htarget name
    exact ⟨hcanonical, hcreate _⟩

/-- The canonical name of a name is its own just if it is not an alias for another one. A name
starts the last backend under its canonical name, which itself starts the one that it is taken
for. -/
theorem canonical?_canonical?_iff (h : (after calls).canonical? name = some c) :
    ((after calls).canonical? c = some c ↔
      ∀ target, lastTarget? calls c = some target → target = c) ∧
    (after calls).backend? name = lastBackend? calls c ∧
    (after calls).backend? c = lastBackend? calls (meant calls c) := by
  obtain ⟨hname, hsome⟩ := canonical?_eq_some_iff.1 h
  have hlower := lower_of_lastBackend? hsome
  refine ⟨?_, by rw [backend?_after, hname], by rw [backend?_after, hlower]⟩
  rw [canonical?_eq_some_iff, and_iff_left hsome, hlower, meant]
  cases lastTarget? calls c <;> simp

theorem canonical?_canonical?_iff_alias : ∃ calls : List (Call Backend),
    calls = [.registerAlias "SCOPES" "Symbols", .register "Symbols" .symbols] ∧
    (after calls).canonical? "Scopes" = some "symbols" ∧
    ((after calls).canonical? "symbols" = some "symbols" ↔
      ∀ target, lastTarget? calls "symbols" = some target → target = "symbols") ∧
    (after calls).backend? "Scopes" = lastBackend? calls "symbols" ∧
    (after calls).backend? "symbols" = lastBackend? calls (meant calls "symbols") := by
  have h : canonical? (after [.registerAlias "SCOPES" "Symbols",
      .register "Symbols" Backend.symbols]) "Scopes" = some "symbols" := by decide +kernel
  exact ⟨_, rfl, h, canonical?_canonical?_iff h⟩

/-- An alias of an alias is followed one step only, to a name that stands for another one. -/
theorem canonical?_chain_reachable : ∃ calls : List (Call Backend),
    calls = [.register "b" .structural, .register "c" .symbols, .registerAlias "a" "b",
      .registerAlias "b" "c"] ∧
    (after calls).canonical? "a" = some "b" ∧ (after calls).canonical? "b" = some "c" ∧
    ((after calls).create python "a" []).map (·.backend) = .ok .structural ∧
    ((after calls).create python "b" []).map (·.backend) = .ok .symbols :=
  ⟨_, rfl, by decide +kernel⟩

end Registry

end DocstringEditor.Analysis
