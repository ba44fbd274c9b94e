import FastWasm.Loader

/-!
# What the section handlers do

One lemma for each handler: it returns `FW_OK` if and only if its section can be read in a certain
way, and then this is the module it leaves. The loops over two cursors come apart here, since
neither cursor decides anything about the other.

A handler mixes reading with writing into the module, and what it writes never decides what it reads
next, a count apart. So its loop is a list of entries that can be read one behind the other, and the
module is updated with that list. The lemmas about encodings and those about arbitrary bytes start
from here, and neither unfolds a handler again.
-/

namespace FastWasm

open Logged (Fallible Part)
open Logged.Fallible

variable {mem : Mem} {s s' : LoadState} {u : PUnit}

/-! ## Parts of the state

Reads of the section, reads of the code and writes into the module follow each other in a handler.
They are reordered here, since each leaves the other two components alone. -/

/-- A middle state that is built from a part of it need not be named. -/
theorem exists_built {σ τ : Type} {p : τ → Prop} {f : τ → σ} {q : σ → Prop} :
    (∃ s, (∃ t, p t ∧ s = f t) ∧ q s) ↔ ∃ t, p t ∧ q (f t) := by
  refine ⟨?_, ?_⟩
  · rintro ⟨_, ⟨t, ht, rfl⟩, hq⟩
    exact ⟨t, ht, hq⟩
  · rintro ⟨t, ht, hq⟩
    exact ⟨_, ⟨t, ht, rfl⟩, hq⟩

@[simp] theorem runs_onData {α : Type} {m : Parse α} {a : α} :
    Runs (Load.onData m) s a s' ↔
      ∃ d, Runs m s.sec.data a d ∧ s' = ⟨s.module, { s.sec with data := d }⟩ :=
  runs_zoom

@[simp] theorem runs_onCode {α : Type} {m : Parse α} {a : α} :
    Runs (Load.onCode m) s a s' ↔
      ∃ c, Runs m s.module.codeRef a c ∧ s' = ⟨{ s.module with codeRef := c }, s.sec⟩ :=
  runs_zoom

@[simp] theorem runs_update {f : LoadedModule → LoadedModule} :
    Runs (Load.update f) s u s' ↔ s' = ⟨f s.module, s.sec⟩ :=
  runs_modify

@[simp] theorem runs_setFree :
    Runs Load.setFree s u s' ↔ s' = ⟨s.module, { s.sec with free := true }⟩ :=
  runs_modify

/-- A loop that reads entries of the section and works them into the module. -/
theorem reads_onData_update {α : Type} {m : Parse α} {g : α → LoadedModule → LoadedModule}
    {us : List PUnit} :
    Reads (Load.onData m >>= fun a => Load.update (g a)) s us s' ↔
      ∃ as d, as.length = us.length ∧ Reads m s.sec.data as d ∧
        s' = ⟨as.foldl (fun m a => g a m) s.module, { s.sec with data := d }⟩ := by
  refine (reads_fold (p := LoadState.dataPart) (g := fun a s => ⟨g a s.module, s.sec⟩)
    (fun _ _ => rfl) fun _ _ _ => rfl).trans ?_
  refine exists_congr fun as => exists_congr fun d => and_congr_right fun _ =>
    and_congr_right fun _ => ?_
  have hfold : ∀ (as : List α) (s : LoadState),
      as.foldl (fun s a => (⟨g a s.module, s.sec⟩ : LoadState)) s =
        ⟨as.foldl (fun m a => g a m) s.module, s.sec⟩ := by
    intro as
    induction as with
    | nil => exact fun _ => rfl
    | cons a as ih => exact fun s => ih _
  rw [hfold]
  rfl

/-- A loop of unit results, once its successive runs are known. -/
theorem exists_loop {ε η σ α τ : Type} {loop : Fallible ε η σ PUnit} {s : σ} {n : ℕ}
    {R : List α → τ → Prop} {F : List α → τ → σ} {Q : σ → Prop}
    (h : ∀ us s', Reads loop s us s' ↔ ∃ as t, as.length = us.length ∧ R as t ∧ s' = F as t) :
    (∃ us : List PUnit, us.length = n ∧ ∃ s', Reads loop s us s' ∧ Q s') ↔
      ∃ as, as.length = n ∧ ∃ t, R as t ∧ Q (F as t) := by
  refine ⟨?_, ?_⟩
  · rintro ⟨us, rfl, s', hs, hq⟩
    obtain ⟨as, t, hlen, hR, rfl⟩ := (h us s').mp hs
    exact ⟨as, hlen, t, hR, hq⟩
  · rintro ⟨as, rfl, t, hR, hq⟩
    refine ⟨List.replicate as.length ⟨⟩, List.length_replicate, _, (h _ _).mpr ⟨as, t, ?_, hR, rfl⟩,
      hq⟩
    rw [List.length_replicate]

/-! ## Sections that are one vector

One lemma for five handlers. A count of 0 leaves the array, and the count, as they were. -/

/-- A vector section returns `FW_OK` when it is a count and that many entries, up to its end. -/
theorem runs_vecSection {α : Type} {cnt : Part LoadedModule UInt32}
    {items : Part LoadedModule (List α)} {entry : Parse α} :
    Runs (fwVecSection mem cnt items entry) s u s' ↔
      ∃ n d, Runs (fwStrLebGetu32 mem) s.sec.data n d ∧
        (n ≠ 0 ∧ (∃ es, es.length = n.toNat ∧ ∃ d', Reads entry d es d' ∧ d'.pos = d'.last ∧
            s' = ⟨items.put es (cnt.put n s.module), ⟨s.sec.type, d', true⟩⟩) ∨
          ¬ n ≠ 0 ∧ d.pos = d.last ∧ s' = ⟨s.module, { s.sec with data := d }⟩) := by
  rw [fwVecSection]
  simp only [runs_bind, runs_onData, runs_ite, runs_update, runs_setFree, runs_consumed,
    runs_collect, exists_built, and_assoc, exists_and_left, exists_eq_left, exists_const]
  refine exists_congr fun n => exists_congr fun d => and_congr_right fun _ =>
    or_congr_left <| and_congr_right fun _ => ?_
  refine (exists_loop fun us x =>
    reads_push (LoadState.data_apart_module.comp items)).trans ?_
  refine exists_congr fun es => and_congr_right fun _ => exists_congr fun d' =>
    and_congr_right fun _ => and_congr_right fun _ => ?_
  simp only [LoadState.modulePart, LoadState.dataPart, Part.comp, items.get_put, items.put_put,
    List.nil_append]

/-! ## Types -/

theorem foldl_addType (ts : List FwModuleType) (module : LoadedModule) :
    ts.foldl (fun m t => m.addType t) { module with type := some [] } =
      { module with type := some ts } := by
  have h : ∀ ts ts' : List FwModuleType,
      ts.foldl (fun m t => m.addType t) { module with type := some ts' } =
        { module with type := some (ts' ++ ts) } := by
    intro ts
    induction ts with
    | nil => simp
    | cons t ts ih =>
      intro ts'
      rw [List.foldl_cons]
      exact (ih (ts' ++ [t])).trans (by rw [List.append_assoc]; rfl)
  exact h ts []

/-- `fw_module_section_type` returns `FW_OK` for a count and that many types, up to the end of
the section. The count is stored when it is 0 too. -/
theorem runs_sectionType :
    Runs (fwModuleSectionType mem) s u s' ↔
      ∃ n d, Runs (fwStrLebGetu32 mem) s.sec.data n d ∧
        (n ≠ 0 ∧ (∃ ts, ts.length = n.toNat ∧ ∃ d', Reads (fwTypeEntry mem) d ts d' ∧
            d'.pos = d'.last ∧
            s' = ⟨{ s.module with typeCnt := n, type := some ts }, { s.sec with data := d' }⟩) ∨
          ¬ n ≠ 0 ∧ d.pos = d.last ∧
            s' = ⟨{ s.module with typeCnt := n }, { s.sec with data := d }⟩) := by
  rw [fwModuleSectionType]
  simp only [runs_bind, runs_onData, runs_ite, runs_update, runs_consumed, runs_collect,
    exists_built, and_assoc, exists_and_left, exists_eq_left, exists_const]
  refine exists_congr fun n => exists_congr fun d => and_congr_right fun _ =>
    or_congr_left <| and_congr_right fun _ => ?_
  refine (exists_loop fun us x => reads_onData_update).trans ?_
  refine exists_congr fun es => and_congr_right fun _ => exists_congr fun d' =>
    and_congr_right fun _ => and_congr_right fun _ => ?_
  rw [foldl_addType es { s.module with typeCnt := n }]

/-! ## Memories and the start function

Two short handlers, one of which fails as soon as it has something to do. -/

/-- `fw_module_section_memory` returns `FW_OK` for an empty vector only. -/
theorem runs_sectionMemory :
    Runs (fwModuleSectionMemory mem) s u s' ↔
      ∃ d, Runs (fwStrLebGetu32 mem) s.sec.data 0 d ∧ d.pos = d.last ∧
        s' = ⟨s.module, { s.sec with data := d }⟩ := by
  rw [fwModuleSectionMemory]
  simp only [runs_bind, runs_onData, runs_ite, runs_update, runs_fail, runs_consumed,
    exists_built, and_assoc, exists_and_left, exists_eq_left, exists_const, false_and, and_false,
    false_or, exists_false]
  refine ⟨?_, ?_⟩
  · rintro ⟨n, d, hn, h0, hend, rfl⟩
    obtain rfl := not_not.mp h0
    exact ⟨d, hn, hend, rfl⟩
  · rintro ⟨d, hn, hend, rfl⟩
    exact ⟨0, d, hn, by simp, hend, rfl⟩

/-- `fw_module_section_start` returns `FW_OK` for an index that is at most `func_cnt`. -/
theorem runs_sectionStart :
    Runs (fwModuleSectionStart mem) s u s' ↔
      ∃ idx d, Runs (fwStrLebGetu32 mem) s.sec.data idx d ∧ idx ≤ s.module.funcCnt ∧
        d.pos = d.last ∧ s' = ⟨if idx ≠ 0 then { s.module with startFunc := idx } else s.module,
          { s.sec with data := d }⟩ := by
  rw [fwModuleSectionStart]
  simp only [runs_bind, runs_onData, runs_ite, runs_get, runs_check, runs_update, runs_consumed,
    exists_built, and_assoc, exists_and_left, exists_eq_left, exists_const]
  refine exists_congr fun n => exists_congr fun d => and_congr_right fun _ => ?_
  by_cases h0 : n = 0
  · simp [h0]
  · simp [h0]

/-! ## Functions and code

The groups of an entry are read twice, and the second pass reads what the first one has. With this
the handler is two lists, of indices and of entries. -/

/-- The number of locals that groups of declarations ask for, as a natural number that does not
wrap. -/
def sumLocals (groups : List (UInt32 × UInt8)) : ℕ := (groups.map fun g => g.1.toNat).sum

theorem length_expandLocals (groups : List (UInt32 × UInt8)) :
    (expandLocals groups).length = sumLocals groups := by
  simp [expandLocals, sumLocals]

/-- `total_cnt` is the sum as far as 32 bits hold it, since it is added up in 32 bits. -/
theorem toNat_total (groups : List (UInt32 × UInt8)) :
    (groups.foldl (fun total (g : UInt32 × UInt8) => total + g.1) 0).toNat =
      sumLocals groups % 2 ^ 32 := by
  have h : ∀ (groups : List (UInt32 × UInt8)) (total : UInt32),
      (groups.foldl (fun total (g : UInt32 × UInt8) => total + g.1) total).toNat =
        (total.toNat + sumLocals groups) % 2 ^ 32 := by
    intro groups
    induction groups with
    | nil => exact fun total => (Nat.mod_eq_of_lt total.toNat_lt).symm
    | cons g groups ih =>
      intro total
      rw [List.foldl_cons, ih, UInt32.toNat_add, Nat.mod_add_mod, sumLocals, sumLocals,
        List.map_cons, List.sum_cons, Nat.add_assoc]
  simpa using h groups 0

theorem forward_localGroup : Forward (fwLocalGroup mem) :=
  Forward.getu32.bind fun _ => Forward.getu8.bind fun _ => Forward.pure _

/-- One entry of the code section can be read when its groups can and ask for less than `2 ^ 32`
locals; the second pass over them reads the same. -/
theorem runs_codeEntry {c c' : FwStr} {e : List UInt8 × UInt32 × FwStr} :
    Runs (fwCodeEntry mem) c e c' ↔
      ∃ size c₁, Runs (fwStrLebGetu32 mem) c size c₁ ∧
        ∃ n c₂, Runs (fwStrLebGetu32 mem) c₁ n c₂ ∧
          ∃ groups, groups.length = n.toNat ∧ ∃ c₃, Reads (fwLocalGroup mem) c₂ groups c₃ ∧
            sumLocals groups < 2 ^ 32 ∧
            e = (expandLocals groups, UInt32.ofNat (sumLocals groups),
              ⟨c₃.pos, c₁.pos + size.toNat⟩) ∧
            c' = ⟨c₁.pos + size.toNat, c.last⟩ := by
  rw [fwCodeEntry]
  simp only [runs_bind, runs_get, runs_collect, runs_seek, runs_ite, runs_halt, runs_pure,
    and_assoc, exists_and_left, exists_eq_left, exists_const, and_false, false_or]
  refine exists_congr fun size => exists_congr fun c₁ => and_congr_right fun hsize =>
    exists_congr fun n => exists_congr fun c₂ => and_congr_right fun hn => ?_
  have hlast : c₂.last = c.last := by rw [(Forward.getu32 hn).2, (Forward.getu32 hsize).2]
  refine ⟨?_, ?_⟩
  · rintro ⟨groups, hlen, c₃, h, groups', hlen', c₄, h', hle, rfl, rfl⟩
    have hc₃ : c₃.last = c₂.last := (forward_localGroup.collect n.toNat
      (runs_collect.mpr ⟨hlen, h⟩)).2
    rw [show (⟨c₂.pos, c₃.last⟩ : FwStr) = c₂ by rw [hc₃]] at h'
    obtain ⟨rfl, rfl⟩ := h.unique h' (hlen.trans hlen'.symm)
    rw [gt_iff_lt, Nat.not_lt, length_expandLocals, toNat_total] at hle
    have hlt : sumLocals groups < 2 ^ 32 := lt_of_le_of_lt hle (Nat.mod_lt _ (by decide))
    refine ⟨groups, hlen, c₃, h, hlt, ?_, by rw [hc₃, hlast]⟩
    congr 2
    apply UInt32.toNat_inj.mp
    rw [toNat_total, UInt32.toNat_ofNat']
  · rintro ⟨groups, hlen, c₃, h, hlt, rfl, rfl⟩
    have hc₃ : c₃.last = c₂.last := (forward_localGroup.collect n.toNat
      (runs_collect.mpr ⟨hlen, h⟩)).2
    refine ⟨groups, hlen, c₃, h, groups, hlen, c₃, ?_, ?_, ?_, by rw [hc₃, hlast]⟩
    · rwa [show (⟨c₂.pos, c₃.last⟩ : FwStr) = c₂ by rw [hc₃]]
    · rw [gt_iff_lt, Nat.not_lt, length_expandLocals, toNat_total, Nat.mod_eq_of_lt hlt]
    · congr 2
      apply UInt32.toNat_inj.mp
      rw [toNat_total, UInt32.toNat_ofNat']

/-- A function from its type and its entry of the code section. -/
def LoadedFunc.ofEntry (functype : Option FwModuleType) (e : List UInt8 × UInt32 × FwStr) :
    LoadedFunc :=
  ⟨e.1, e.2.1, functype, e.2.2⟩

/-- A type index is read when it is at most `type_cnt` and there is an array to look it up in. -/
theorem runs_funcType {t : Option FwModuleType} :
    Runs (fwFuncType mem) s t s' ↔
      ∃ idx d, Runs (fwStrLebGetu32 mem) s.sec.data idx d ∧ idx ≤ s.module.typeCnt ∧
        ∃ types, s.module.type = some types ∧ t = types[idx.toNat]? ∧
          s' = ⟨s.module, { s.sec with data := d }⟩ := by
  rw [fwFuncType]
  simp only [runs_bind, runs_onData, runs_get, runs_check, exists_built, and_assoc,
    exists_and_left, exists_eq_left, exists_const, gt_iff_lt, UInt32.not_lt]
  refine exists_congr fun idx => exists_congr fun d => and_congr_right fun _ =>
    and_congr_right fun _ => ?_
  cases s.module.type with
  | none => simp
  | some types => simp

/-- One round of the loop over the functions: an index that is at most `type_cnt`, and an entry. -/
theorem runs_funcEntry :
    Runs (fwFuncEntry mem) s u s' ↔
      ∃ idx d, Runs (fwStrLebGetu32 mem) s.sec.data idx d ∧ idx ≤ s.module.typeCnt ∧
        ∃ types, s.module.type = some types ∧
          ∃ e c, Runs (fwCodeEntry mem) s.module.codeRef e c ∧
            s' = ⟨{ s.module with
              codeRef := c, funcs := s.module.funcs ++ [.ofEntry types[idx.toNat]? e] },
              { s.sec with data := d }⟩ := by
  rw [fwFuncEntry]
  simp only [runs_bind, runs_funcType, runs_onCode, runs_update, exists_built]
  refine ⟨?_, ?_⟩
  · rintro ⟨t, _, ⟨idx, d, hidx, hle, types, htypes, rfl, rfl⟩, e, c, hc, rfl⟩
    exact ⟨idx, d, hidx, hle, types, htypes, e, c, hc, rfl⟩
  · rintro ⟨idx, d, hidx, hle, types, htypes, e, c, hc, rfl⟩
    exact ⟨_, _, ⟨idx, d, hidx, hle, types, htypes, rfl, rfl⟩, e, c, hc, rfl⟩

/-- The functions from their type indices and their code. -/
def funcsOf (types : List FwModuleType) (idxs : List UInt32)
    (entries : List (List UInt8 × UInt32 × FwStr)) : List LoadedFunc :=
  List.zipWith (fun idx e => .ofEntry types[idx.toNat]? e) idxs entries

/-- The loop over the functions is a loop over the type indices and one over the code. The rounds
read from both sections in turn, but none of them looks at what the other cursor has read, so the
two can be taken apart. -/
theorem reads_funcEntry {us : List PUnit} {types : List FwModuleType}
    (htypes : s.module.type = some types) :
    Reads (fwFuncEntry mem) s us s' ↔
      ∃ idxs d, Reads (fwStrLebGetu32 mem) s.sec.data idxs d ∧ idxs.length = us.length ∧
        (∀ idx ∈ idxs, idx ≤ s.module.typeCnt) ∧
        ∃ entries c, Reads (fwCodeEntry mem) s.module.codeRef entries c ∧
          entries.length = us.length ∧
          s' = ⟨{ s.module with
            codeRef := c, funcs := s.module.funcs ++ funcsOf types idxs entries },
            { s.sec with data := d }⟩ := by
  induction us generalizing s with
  | nil =>
    simp only [reads_nil, List.length_nil, List.length_eq_zero_iff]
    refine ⟨?_, ?_⟩
    · rintro rfl
      exact ⟨[], _, .nil _, rfl, by simp, [], _, .nil _, rfl, by simp [funcsOf]⟩
    · rintro ⟨_, d, hd, rfl, -, _, c, hc, rfl, rfl⟩
      rw [reads_nil.mp hd, reads_nil.mp hc]
      simp [funcsOf]
  | cons _ us ih =>
    simp only [reads_cons, runs_funcEntry]
    refine ⟨?_, ?_⟩
    · rintro ⟨_, ⟨idx, d, hidx, hle, types', htypes', e, c, hc, rfl⟩, h⟩
      obtain rfl := Option.some.inj (htypes.symm.trans htypes')
      obtain ⟨idxs, d', hd', hlen, hall, entries, c', hc', hlen', rfl⟩ :=
        (ih (by exact htypes)).mp h
      exact ⟨idx :: idxs, d', .cons hidx hd', by simp [hlen],
        List.forall_mem_cons.mpr ⟨hle, hall⟩, e :: entries, c', .cons hc hc', by simp [hlen'],
        by simp [funcsOf]⟩
    · rintro ⟨_ | ⟨idx, idxs⟩, d', hd, hlen, hall, _ | ⟨e, entries⟩, c', hc, hlen', rfl⟩
      · simp at hlen
      · simp at hlen
      · simp at hlen'
      · obtain ⟨d, hidx, hd⟩ := reads_cons.mp hd
        obtain ⟨c, he, hc⟩ := reads_cons.mp hc
        obtain ⟨hle, hall⟩ := List.forall_mem_cons.mp hall
        refine ⟨_, ⟨idx, d, hidx, hle, types, htypes, e, c, he, rfl⟩, ?_⟩
        refine (ih (by exact htypes)).mpr ⟨idxs, d', hd, by simpa using hlen, hall, entries, c',
          hc, by simpa using hlen', ?_⟩
        simp [funcsOf]

/-- `fw_module_section_func` returns `FW_OK` for two sections with one count, so many indices in the
one and so many entries in the other, each up to its end. -/
theorem runs_sectionFunc :
    Runs (fwModuleSectionFunc mem) s u s' ↔
      ∃ n d c, Runs (fwStrLebGetu32 mem) s.sec.data n d ∧
        Runs (fwStrLebGetu32 mem) s.module.codeRef n c ∧
        (n ≠ 0 ∧ (∃ types, s.module.type = some types ∧
            ∃ idxs d', Reads (fwStrLebGetu32 mem) d idxs d' ∧ idxs.length = n.toNat ∧
              (∀ idx ∈ idxs, idx ≤ s.module.typeCnt) ∧
              ∃ entries c', Reads (fwCodeEntry mem) c entries c' ∧ entries.length = n.toNat ∧
                d'.pos = d'.last ∧
                s' = ⟨{ s.module with
                  codeRef := c', funcCnt := n, funcs := funcsOf types idxs entries },
                  ⟨s.sec.type, d', true⟩⟩) ∨
          ¬ n ≠ 0 ∧ d.pos = d.last ∧
            s' = ⟨{ s.module with codeRef := c }, { s.sec with data := d }⟩) := by
  rw [fwModuleSectionFunc]
  simp only [runs_bind, runs_onData, runs_onCode, runs_check, runs_ite, runs_update, runs_setFree,
    runs_collect, runs_consumed, exists_built, and_assoc, exists_and_left, exists_eq_left,
    exists_const]
  refine ⟨?_, ?_⟩
  · rintro ⟨_, d, hn, n, c, hc, rfl, ⟨h0, us, hlen, x, h, hend, rfl⟩ | ⟨h0, hend, rfl⟩⟩
    · obtain ⟨types, htypes⟩ : ∃ types, s.module.type = some types := by
        obtain ⟨_, us, rfl⟩ := List.exists_cons_of_length_pos (l := us) (by
          rw [hlen]
          exact Nat.pos_of_ne_zero fun h => h0 (UInt32.toNat_inj.mp h))
        obtain ⟨_, h, -⟩ := reads_cons.mp h
        obtain ⟨idx, d, -, -, types, htypes, -⟩ := runs_funcEntry.mp h
        exact ⟨types, htypes⟩
      obtain ⟨idxs, d', hd', hidxs, hall, entries, c', hc', hentries, rfl⟩ :=
        (reads_funcEntry (by exact htypes)).mp h
      exact ⟨n, d, hn, c, hc, .inl ⟨h0, types, htypes, idxs, d', hd', hidxs.trans hlen, hall,
        entries, c', hc', hentries.trans hlen, hend, rfl⟩⟩
    · exact ⟨n, d, hn, c, hc, .inr ⟨h0, hend, rfl⟩⟩
  · rintro ⟨n, d, hn, c, hc, ⟨h0, types, htypes, idxs, d', hd', hidxs, hall, entries, c', hc',
      hentries, hend, rfl⟩ | ⟨h0, hend, rfl⟩⟩
    · refine ⟨n, d, hn, n, c, hc, rfl, .inl ⟨h0, List.replicate n.toNat ⟨⟩, List.length_replicate,
        _, (reads_funcEntry (by exact htypes)).mpr ⟨idxs, d', hd', ?_, hall, entries, c', hc', ?_,
          rfl⟩, hend, rfl⟩⟩
      · rw [hidxs, List.length_replicate]
      · rw [hentries, List.length_replicate]
    · exact ⟨n, d, hn, n, c, hc, rfl, .inr ⟨h0, hend, rfl⟩⟩

/-! ## Imports

The counting pass and the filling pass are lists of what each of them reads, and the arrays in
between are allocated from the counts. -/

/-- What the counting pass reads of one import: its kind, when the byte is one. -/
def fwImportSeen (mem : Mem) : Parse (Option FwImportKind) := do
  let mnameLen ← fwStrLebGetu32 mem
  fwStrPass mnameLen.toNat
  let nsnameLen ← fwStrLebGetu32 mem
  fwStrPass nsnameLen.toNat
  let kind ← fwStrLebGetu8 mem
  let kind := FwImportKind.ofByte kind
  fwImportSkip mem kind
  pure kind

/-- What the filling pass reads of one import: its names, its kind and its descriptor. -/
def fwImportEntry (mem : Mem) : Parse LoadedImport := do
  let mname ← fwImportName mem
  let nsname ← fwImportName mem
  let kind ← fwStrLebGetu8 mem
  match FwImportKind.ofByte kind with
  | none => fail
  | some kind => do
    let desc ← fwImportDesc mem kind
    pure ⟨mname, nsname, desc⟩

/-- The imports of a kind among those of a list, in their order. -/
def importsOf (k : FwImportKind) (imps : List LoadedImport) : List LoadedImport :=
  imps.filter fun imp => imp.desc.kind = k

/-- The module after the counting pass has seen these kinds. -/
def LoadedModule.countImports (kinds : List (Option FwImportKind)) (module : LoadedModule) :
    LoadedModule :=
  { module with importCnt := fun k => module.importCnt k + UInt32.ofNat (kinds.count (some k)) }

/-- The module after the filling pass has read these imports. -/
def LoadedModule.addImports (imps : List LoadedImport) (module : LoadedModule) : LoadedModule :=
  { module with imports := fun k => module.imports k ++ importsOf k imps }

theorem foldl_countImport (kinds : List (Option FwImportKind)) (module : LoadedModule) :
    kinds.foldl (fun m k => m.countImport k) module = module.countImports kinds := by
  induction kinds generalizing module with
  | nil => simp [LoadedModule.countImports]
  | cons kind kinds ih =>
    rw [List.foldl_cons, ih]
    cases kind with
    | none => simp [LoadedModule.countImport, LoadedModule.countImports]
    | some kind =>
      simp only [LoadedModule.countImport, LoadedModule.countImports, LoadedModule.mk.injEq,
        true_and, and_true]
      funext k
      by_cases hk : kind = k
      · subst hk
        rw [Function.update_self, List.count_cons_self, UInt32.ofNat_add, UInt32.add_assoc]
        rw [UInt32.add_comm (UInt32.ofNat _)]
        rfl
      · simp [hk, Function.update_of_ne (Ne.symm hk)]

theorem runs_importCount :
    Runs (fwImportCount mem) s u s' ↔
      Runs (Load.onData (fwImportSeen mem) >>= fun k => Load.update (.countImport k)) s u s' := by
  rw [fwImportCount, fwImportSeen]
  simp only [runs_bind, runs_onData, runs_update, runs_pure, exists_built, exists_eq_left]
  refine ⟨?_, ?_⟩
  · rintro ⟨kind, d, ⟨n, d₁, hn, _, d₂, hp, n', d₃, hn', _, d₄, hp', hk⟩, _, d₅, hskip, rfl⟩
    exact ⟨_, d₅, ⟨n, d₁, hn, ⟨⟩, d₂, hp, n', d₃, hn', ⟨⟩, d₄, hp', kind, d, hk, ⟨⟩, d₅, hskip, rfl,
      rfl⟩, rfl⟩
  · rintro ⟨_, d₅, ⟨n, d₁, hn, _, d₂, hp, n', d₃, hn', _, d₄, hp', kind, d, hk, _, _, hskip, rfl,
      rfl⟩, rfl⟩
    exact ⟨kind, d, ⟨n, d₁, hn, ⟨⟩, d₂, hp, n', d₃, hn', ⟨⟩, d₄, hp', hk⟩, ⟨⟩, _, hskip, rfl⟩

/-- The counting pass reads a kind for each import and adds to the counts. -/
theorem reads_importCount {us : List PUnit} :
    Reads (fwImportCount mem) s us s' ↔
      ∃ kinds d, kinds.length = us.length ∧ Reads (fwImportSeen mem) s.sec.data kinds d ∧
        s' = ⟨s.module.countImports kinds, { s.sec with data := d }⟩ := by
  rw [reads_congr fun _ _ _ => runs_importCount, reads_onData_update]
  simp only [foldl_countImport]

theorem kind_of_importDesc {k : FwImportKind} {d d' : FwStr} {desc : FwImportDesc}
    (h : Runs (fwImportDesc mem k) d desc d') : desc.kind = k := by
  cases k <;> simp only [fwImportDesc, runs_bind, runs_pure] at h
  · obtain ⟨_, _, _, rfl, -⟩ := h
    rfl
  · obtain ⟨_, _, _, _, _, _, _, _, _, _, _, _, rfl, -⟩ := h
    rfl
  · obtain ⟨_, _, _, _, _, _, _, _, _, rfl, -⟩ := h
    rfl
  · obtain ⟨_, _, _, _, _, _, rfl, -⟩ := h
    rfl

/-- One round of the filling pass: an import is read, and there is room for it. The source reads the
descriptor right into the array of its kind, past its end when more imports come than were counted.
-/
theorem runs_importFill :
    Runs (fwImportFill mem) s u s' ↔
      ∃ imp d, Runs (fwImportEntry mem) s.sec.data imp d ∧
        (s.module.imports imp.desc.kind).length < (s.module.importCnt imp.desc.kind).toNat ∧
        s' = ⟨s.module.addImport imp.desc.kind imp, { s.sec with data := d }⟩ := by
  rw [fwImportFill, fwImportEntry]
  simp only [runs_bind, runs_onData, runs_get, exists_built, and_assoc, exists_and_left,
    exists_eq_left]
  refine ⟨?_, ?_⟩
  · rintro ⟨mname, d₁, h₁, nsname, d₂, h₂, byte, d₃, h₃, h⟩
    cases hk : FwImportKind.ofByte byte with
    | none => simp [hk] at h
    | some k =>
      simp only [hk, runs_ite, runs_bind, runs_onData, runs_update, runs_halt, exists_built,
        and_false, or_false] at h
      obtain ⟨hlt, desc, d₄, h₄, rfl⟩ := h
      obtain rfl := kind_of_importDesc h₄
      refine ⟨⟨mname, nsname, desc⟩, d₄, ⟨mname, d₁, h₁, nsname, d₂, h₂, byte, d₃, h₃, ?_⟩, hlt,
        rfl⟩
      simp only [hk, runs_bind, runs_pure]
      exact ⟨desc, d₄, h₄, rfl, rfl⟩
  · rintro ⟨imp, d, ⟨mname, d₁, h₁, nsname, d₂, h₂, byte, d₃, h₃, h⟩, hlt, rfl⟩
    refine ⟨mname, d₁, h₁, nsname, d₂, h₂, byte, d₃, h₃, ?_⟩
    cases hk : FwImportKind.ofByte byte with
    | none => simp [hk] at h
    | some k =>
      simp only [hk, runs_bind, runs_pure] at h
      obtain ⟨desc, _, h₄, rfl, rfl⟩ := h
      obtain rfl := kind_of_importDesc h₄
      simp only [runs_ite, runs_bind, runs_onData, runs_update, runs_halt, exists_built, and_false,
        or_false]
      exact ⟨hlt, desc, _, h₄, rfl⟩

/-- There is room for all of these imports: an array for each kind, and no more imports than its
count. -/
def LoadedModule.Room (module : LoadedModule) (imps : List LoadedImport) : Prop :=
  ∀ imp ∈ imps, (module.imports imp.desc.kind).length + (importsOf imp.desc.kind imps).length ≤
    (module.importCnt imp.desc.kind).toNat

theorem importsOf_cons (k : FwImportKind) (imp : LoadedImport) (imps : List LoadedImport) :
    importsOf k (imp :: imps) =
      if imp.desc.kind = k then imp :: importsOf k imps else importsOf k imps := by
  simp [importsOf, List.filter_cons]

theorem room_cons {module : LoadedModule} {imp : LoadedImport} {imps : List LoadedImport} :
    module.Room (imp :: imps) ↔
      (module.imports imp.desc.kind).length < (module.importCnt imp.desc.kind).toNat ∧
        (module.addImport imp.desc.kind imp).Room imps := by
  -- an import of the same kind finds one more in the array, and one less before it
  have hstep : ∀ k, ((module.addImport imp.desc.kind imp).imports k).length +
      (importsOf k imps).length = (module.imports k).length +
        (importsOf k (imp :: imps)).length := by
    intro k
    rw [importsOf_cons]
    by_cases hk : imp.desc.kind = k
    · subst hk
      rw [if_pos rfl]
      simp [LoadedModule.addImport, Nat.add_assoc, Nat.add_comm 1]
    · rw [if_neg hk]
      simp [LoadedModule.addImport, Function.update_of_ne (Ne.symm hk)]
  have hself : importsOf imp.desc.kind (imp :: imps) = imp :: importsOf imp.desc.kind imps := by
    rw [importsOf_cons, if_pos rfl]
  refine ⟨?_, ?_⟩
  · intro h
    have himp := h imp List.mem_cons_self
    rw [hself, List.length_cons] at himp
    refine ⟨by omega, fun imp' h' => ?_⟩
    rw [hstep]
    exact h imp' (List.mem_cons_of_mem _ h')
  · rintro ⟨hlt, h⟩ imp' h'
    rcases List.mem_cons.mp h' with rfl | h'
    · cases hnil : importsOf imp'.desc.kind imps with
      | nil =>
        rw [hself, hnil, List.length_singleton]
        exact hlt
      | cons imp'' rest =>
        -- the last import of the kind speaks for all
        have hmem : imp'' ∈ importsOf imp'.desc.kind imps := by rw [hnil]; exact List.mem_cons_self
        obtain ⟨hmem, hkind⟩ := List.mem_filter.mp hmem
        have := h imp'' hmem
        rw [of_decide_eq_true hkind, hstep] at this
        exact this
    · rw [← hstep]
      exact h imp' h'

theorem addImports_cons (module : LoadedModule) (imp : LoadedImport) (imps : List LoadedImport) :
    (module.addImport imp.desc.kind imp).addImports imps = module.addImports (imp :: imps) := by
  simp only [LoadedModule.addImports, LoadedModule.addImport, LoadedModule.mk.injEq, true_and,
    and_true]
  funext k
  rw [importsOf_cons]
  by_cases hk : imp.desc.kind = k
  · subst hk
    simp
  · simp [hk, Function.update_of_ne (Ne.symm hk)]

/-- The filling pass reads an entry for each import and stores it, as long as there is room. By
induction on the rounds: an import is stored behind those of its kind that came before it. -/
theorem reads_importFill {us : List PUnit} :
    Reads (fwImportFill mem) s us s' ↔
      ∃ imps d, imps.length = us.length ∧
        (Reads (fwImportEntry mem) s.sec.data imps d ∧ s.module.Room imps) ∧
        s' = ⟨s.module.addImports imps, { s.sec with data := d }⟩ := by
  induction us generalizing s with
  | nil =>
    simp only [reads_nil, List.length_nil, List.length_eq_zero_iff]
    refine ⟨?_, ?_⟩
    · rintro rfl
      exact ⟨[], _, rfl, ⟨.nil _, by simp [LoadedModule.Room]⟩,
        by simp [LoadedModule.addImports, importsOf]⟩
    · rintro ⟨_, d, rfl, ⟨h, -⟩, rfl⟩
      rw [reads_nil.mp h]
      simp [LoadedModule.addImports, importsOf]
  | cons _ us ih =>
    simp only [reads_cons, runs_importFill]
    refine ⟨?_, ?_⟩
    · rintro ⟨_, ⟨imp, d, hd, hlt, rfl⟩, h⟩
      obtain ⟨imps, d', hlen, ⟨hd', hroom⟩, rfl⟩ := ih.mp h
      exact ⟨imp :: imps, d', by simp [hlen], ⟨.cons hd hd', room_cons.mpr ⟨hlt, hroom⟩⟩,
        by rw [addImports_cons]⟩
    · rintro ⟨_ | ⟨imp, imps⟩, d', hlen, ⟨h, hroom⟩, rfl⟩
      · simp at hlen
      · obtain ⟨d, hd, h⟩ := reads_cons.mp h
        obtain ⟨hlt, hroom⟩ := room_cons.mp hroom
        exact ⟨_, ⟨imp, d, hd, hlt, rfl⟩, ih.mpr ⟨imps, d', by simpa using hlen, ⟨h, hroom⟩,
          by rw [addImports_cons]⟩⟩

theorem forward_limitsMax (limits dflt : UInt32) : Forward (fwLimitsMax mem limits dflt) :=
  Forward.getu32.ite (Forward.pure dflt)

theorem forward_importSkip (k : Option FwImportKind) : Forward (fwImportSkip mem k) := by
  rcases k with _ | _ | _ | _ | _
  · exact Forward.pure _
  · exact Forward.getu32.bind fun _ => Forward.pure _
  · exact Forward.getu8.bind fun _ => Forward.pure _
  · exact Forward.getu32.bind fun _ => Forward.getu32.bind fun _ =>
      (forward_limitsMax _ _).bind fun _ => Forward.pure _
  · exact Forward.getu8.bind fun _ => Forward.getu8.bind fun _ => Forward.pure _

theorem forward_importSeen : Forward (fwImportSeen mem) :=
  Forward.getu32.bind fun _ => (Forward.pass _).bind fun _ => Forward.getu32.bind fun _ =>
    (Forward.pass _).bind fun _ => Forward.getu8.bind fun _ =>
      (forward_importSkip _).bind fun _ => Forward.pure _

/-- `fw_module_section_import` returns `FW_OK` when both passes can read the imports and the
counts leave room for them. -/
theorem runs_sectionImport :
    Runs (fwModuleSectionImport mem) s u s' ↔
      ∃ n d, Runs (fwStrLebGetu32 mem) s.sec.data n d ∧
        (n ≠ 0 ∧ (∃ kinds, kinds.length = n.toNat ∧
            ∃ d₁, Reads (fwImportSeen mem) d kinds d₁ ∧ ∃ imps, imps.length = n.toNat ∧
              ∃ d₂, Reads (fwImportEntry mem) d imps d₂ ∧
                (s.module.countImports kinds).allocImports.Room imps ∧ d₂.pos = d₂.last ∧
                s' = ⟨(s.module.countImports kinds).allocImports.addImports imps,
                  ⟨s.sec.type, d₂, true⟩⟩) ∨
          ¬ n ≠ 0 ∧ d.pos = d.last ∧ s' = ⟨s.module, { s.sec with data := d }⟩) := by
  rw [fwModuleSectionImport]
  simp only [runs_bind, runs_onData, runs_get, runs_ite, runs_update, runs_setFree, runs_seek,
    runs_collect, runs_consumed, exists_built, and_assoc, exists_and_left, exists_eq_left,
    exists_const]
  refine exists_congr fun n => exists_congr fun d => and_congr_right fun _ =>
    or_congr_left <| and_congr_right fun _ => ?_
  refine (exists_loop fun us x => reads_importCount).trans ?_
  refine exists_congr fun kinds => and_congr_right fun hlen => exists_congr fun d₁ =>
    and_congr_right fun h => ?_
  have hlast : d₁.last = d.last := (forward_importSeen.collect n.toNat
    (runs_collect.mpr ⟨hlen, h⟩)).2
  refine (exists_loop fun us x => reads_importFill).trans ?_
  simp only [hlast, and_assoc]

end FastWasm
