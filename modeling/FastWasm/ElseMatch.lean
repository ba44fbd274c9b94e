import FastWasm.Format

/-!
# Which `if` an `else` goes to

The validator keeps the open blocks in `blktmp` and the `if` blocks without an `else` so far in
`iftmp`. An `end` takes the last block off `blktmp`, but nothing takes an `if` that ends without an
`else` off `iftmp`: the next `else` goes to it instead of its own `if`.

The walk over a tree is described by what it adds to the block lists (`Effect`), by induction on the
tree. From it follows when the entries are those of the tree (`else_matched_iff`): in exactly the
trees that have no `if` without an `else` inside the then-branch of an `if` with one.

The effect of a tree says two things about its entries at once, and each for its own direction of
the equivalence. When no `else` of the tree is misplaced, every entry has all that the tree says of
it. When one is, some entry has an `els` that is too far on, because the `if` that lost its `else`
gets its own `end` for one, and this stays so whatever comes behind. How many `if`s a tree leaves in
`iftmp` is all that the code around it needs to know.
-/

namespace FastWasm

open Logged

/-! ## Recorded constructs

The entries of a tree stand one behind the other in the order of the openings, so they are compared
with its constructs by their place. What is known of them is collected in two propositions, `good`
and `bad`, one for each direction of the theorem. -/

/-- The entries from address `n` on, against the constructs they are for: the starts are recorded;
when `good` holds so is all the rest, and when `bad` does one of them has an `els` too far on. -/
structure Records (entry : ℕ → FwModuleFuncBlock) (n : ℕ) (cs : List Construct)
    (good bad : Prop) : Prop where
  /-- the starts -/
  start : ∀ i c, cs[i]? = some c → (entry (n + i)).start = some c.start
  /-- everything -/
  all : good → ∀ i c, cs[i]? = some c → entry (n + i) = c.block
  /-- one that went wrong -/
  wrong : bad → ∃ i c e, cs[i]? = some c ∧ (entry (n + i)).els = some e ∧ c.els < e

theorem getElem?_append_cases {α : Type} {l l' : List α} {i : ℕ} {a : α}
    (h : (l ++ l')[i]? = some a) : l[i]? = some a ∨ ∃ j, i = l.length + j ∧ l'[j]? = some a := by
  rcases Nat.lt_or_ge i l.length with hlt | hge
  · rw [List.getElem?_append_left hlt] at h
    exact .inl h
  · rw [List.getElem?_append_right hge] at h
    exact .inr ⟨i - l.length, by omega, h⟩

theorem lt_of_getElem? {α : Type} {l : List α} {i : ℕ} {a : α} (h : l[i]? = some a) :
    i < l.length :=
  (List.getElem?_eq_some_iff.mp h).1

namespace Records

variable {entry entry' : ℕ → FwModuleFuncBlock} {n : ℕ} {cs cs' : List Construct}
  {good bad good' bad' : Prop}

theorem nil (bad : Prop) (hbad : ¬ bad) (good : Prop) : Records entry n [] good bad :=
  ⟨fun _ _ h => (Option.some_ne_none _ h.symm).elim,
    fun _ _ _ h => (Option.some_ne_none _ h.symm).elim, fun h => absurd h hbad⟩

theorem mono (h : Records entry n cs good bad) (hg : good' → good) (hb : bad' → bad) :
    Records entry n cs good' bad' :=
  ⟨h.start, fun hgood => h.all (hg hgood), fun hbad => h.wrong (hb hbad)⟩

/-- Only the entries of these constructs matter, and they are those of a window of addresses. -/
theorem congr (h : Records entry n cs good bad)
    (he : ∀ id, n ≤ id → id < n + cs.length → entry' id = entry id) :
    Records entry' n cs good bad := by
  have he' : ∀ {i c}, cs[i]? = some c → entry' (n + i) = entry (n + i) := fun hc =>
    he _ (Nat.le_add_right ..) (Nat.add_lt_add_left (lt_of_getElem? hc) n)
  refine ⟨?_, ?_, ?_⟩
  · intro i c hc
    rw [he' hc]
    exact h.start i c hc
  · intro hg i c hc
    rw [he' hc]
    exact h.all hg i c hc
  · intro hb
    obtain ⟨i, c, e, hc, hels, hlt⟩ := h.wrong hb
    exact ⟨i, c, e, hc, by rw [he' hc]; exact hels, hlt⟩

theorem append (h : Records entry n cs good bad)
    (h' : Records entry (n + cs.length) cs' good' bad') :
    Records entry n (cs ++ cs') (good ∧ good') (bad ∨ bad') := by
  refine ⟨?_, ?_, ?_⟩
  · intro i c hc
    rcases getElem?_append_cases hc with hc | ⟨j, rfl, hc'⟩
    · exact h.start i c hc
    · rw [← Nat.add_assoc]
      exact h'.start j c hc'
  · intro hg i c hc
    rcases getElem?_append_cases hc with hc | ⟨j, rfl, hc'⟩
    · exact h.all hg.1 i c hc
    · rw [← Nat.add_assoc]
      exact h'.all hg.2 j c hc'
  · rintro (hb | hb)
    · obtain ⟨i, c, e, hc, hels, hlt⟩ := h.wrong hb
      exact ⟨i, c, e, by rw [List.getElem?_append_left (lt_of_getElem? hc)]; exact hc, hels, hlt⟩
    · obtain ⟨j, c, e, hc, hels, hlt⟩ := h'.wrong hb
      refine ⟨cs.length + j, c, e, ?_, by rw [← Nat.add_assoc]; exact hels, hlt⟩
      rw [List.getElem?_append_right (Nat.le_add_right ..), Nat.add_sub_cancel_left]
      exact hc

/-- One construct more in front, whose start is recorded. -/
theorem cons {c : Construct} (h : Records entry (n + 1) cs good bad)
    (hc : (entry n).start = some c.start) :
    Records entry n (c :: cs) (entry n = c.block ∧ good)
      ((∃ e, (entry n).els = some e ∧ c.els < e) ∨ bad) := by
  have hone : Records entry n [c] (entry n = c.block)
      (∃ e, (entry n).els = some e ∧ c.els < e) := by
    have hi : ∀ {i d}, [c][i]? = some d → i = 0 ∧ c = d := by
      intro i d hd
      have hlt := lt_of_getElem? hd
      obtain rfl : i = 0 := by simpa using hlt
      exact ⟨rfl, Option.some.inj hd⟩
    refine ⟨?_, ?_, ?_⟩
    · intro i d hd
      obtain ⟨rfl, rfl⟩ := hi hd
      exact hc
    · intro hg i d hd
      obtain ⟨rfl, rfl⟩ := hi hd
      exact hg
    · rintro ⟨e, hels, hlt⟩
      exact ⟨0, c, e, rfl, hels, hlt⟩
  exact hone.append h

/-- An `els` set further on does not repair anything: an entry that had one too far on gets one that
is further still. -/
theorem set_els {id m : ℕ} (h : Records entry n cs good bad) (hm : ∀ c ∈ cs, c.els < m) :
    Records (Function.update entry id { entry id with els := some m }) n cs False bad := by
  have hcases : ∀ j, Function.update entry id { entry id with els := some m } j = entry j ∨
      Function.update entry id { entry id with els := some m } j =
        { entry j with els := some m } := by
    intro j
    rcases eq_or_ne j id with rfl | hj
    · exact .inr (Function.update_self ..)
    · exact .inl (Function.update_of_ne hj ..)
  refine ⟨?_, False.elim, ?_⟩
  · intro i c hc
    rcases hcases (n + i) with he | he <;> rw [he] <;> exact h.start i c hc
  · intro hb
    obtain ⟨i, c, e, hc, hels, hlt⟩ := h.wrong hb
    rcases hcases (n + i) with he | he
    · exact ⟨i, c, e, hc, by rw [he]; exact hels, hlt⟩
    · exact ⟨i, c, m, hc, by rw [he], hm c (List.mem_of_getElem? hc)⟩

end Records

/-! ## The block lists

How a tree changes the lists does not depend on what is in them. So the effects of a tree and of the
code behind it are put together, and the effect of a construct comes from that of its contents,
between the opening and the `end`. -/

/-- The block lists after the opening of a construct, with its start and its type recorded. -/
def FuncBlks.begin (s : FuncBlks) (start : ℕ) (type : UInt8) : FuncBlks :=
  s.openBlk.setStart s.fresh start type

/-- What the walk over a whole tree does to the block lists: `cs` are its constructs, `k` the number
of those that stay in `iftmp`. The entries are appended in the order of the openings, and closed in
the order of the ends. -/
structure Effect (cs : List Construct) (k : ℕ) (good bad : Prop) (s s' : FuncBlks) : Prop where
  /-- one entry for each construct -/
  fresh : s'.fresh = s.fresh + cs.length
  /-- they are all closed -/
  blktmp : s'.blktmp = s.blktmp
  /-- some of them stay in `iftmp` -/
  iftmp : ∃ ifs, s'.iftmp = s.iftmp ++ ifs ∧ ifs.length = k ∧
    ∀ id ∈ ifs, s.fresh ≤ id ∧ id < s'.fresh
  /-- and all are in `blk` -/
  blk : ∃ new, s'.blk = s.blk ++ new ∧ ∀ id, id ∈ new ↔ s.fresh ≤ id ∧ id < s'.fresh
  /-- no `else` goes astray -/
  stray : s'.stray = s.stray
  /-- the entries of other constructs are as they were -/
  frame : ∀ id < s.fresh, s'.entry id = s.entry id
  /-- what is recorded -/
  records : Records s'.entry s.fresh cs good bad

/-- What has happened to the block lists between the opening of a construct at `start` and its
`end`; `els` is what its entry has so far. -/
structure Inner (start : ℕ) (type : UInt8) (els : Option ℕ) (cs : List Construct) (k : ℕ)
    (good bad : Prop) (s s' : FuncBlks) : Prop where
  /-- its own entry comes first -/
  fresh : s'.fresh = s.fresh + 1 + cs.length
  /-- it is the last block still open -/
  blktmp : s'.blktmp = s.blktmp ++ [s.fresh]
  /-- it may be in `iftmp`, with others -/
  iftmp : ∃ ifs, s'.iftmp = s.iftmp ++ ifs ∧ ifs.length = k ∧
    ∀ id ∈ ifs, s.fresh ≤ id ∧ id < s'.fresh
  /-- the others are closed -/
  blk : ∃ new, s'.blk = s.blk ++ new ∧ ∀ id, id ∈ new ↔ s.fresh < id ∧ id < s'.fresh
  /-- no `else` goes astray -/
  stray : s'.stray = s.stray
  /-- the entries of other constructs are as they were -/
  frame : ∀ id < s.fresh, s'.entry id = s.entry id
  /-- its own entry -/
  entry : s'.entry s.fresh = ⟨some start, els, none, type⟩
  /-- what is recorded about the others -/
  records : Records s'.entry (s.fresh + 1) cs good bad

section Effects

variable {cs cs' : List Construct} {k k' start m fin : ℕ} {type : UInt8} {els : Option ℕ}
  {good bad good' bad' : Prop} {s s₀ s₁ s₂ : FuncBlks}

theorem Effect.refl (s : FuncBlks) : Effect [] 0 True False s s where
  fresh := rfl
  blktmp := rfl
  iftmp := ⟨[], (List.append_nil _).symm, rfl, fun _ h => by cases h⟩
  blk := ⟨[], (List.append_nil _).symm, fun id => by simp⟩
  stray := rfl
  frame := fun _ _ => rfl
  records := .nil _ not_false _

theorem Effect.mono (h : Effect cs k good bad s s₁) (hg : good' → good) (hb : bad' → bad) :
    Effect cs k good' bad' s s₁ :=
  { h with records := h.records.mono hg hb }

/-- A list of ids grows twice, by ids of two windows of addresses, one behind the other. -/
theorem append_ids {xs ys zs : List ℕ} {a b c : ℕ} (hab : a ≤ b) (hbc : b ≤ c)
    (h : ∃ new, ys = xs ++ new ∧ new.length = k ∧ ∀ id ∈ new, a ≤ id ∧ id < b)
    (h' : ∃ new, zs = ys ++ new ∧ new.length = k' ∧ ∀ id ∈ new, b ≤ id ∧ id < c) :
    ∃ new, zs = xs ++ new ∧ new.length = k + k' ∧ ∀ id ∈ new, a ≤ id ∧ id < c := by
  obtain ⟨new, rfl, rfl, hids⟩ := h
  obtain ⟨new', rfl, rfl, hids'⟩ := h'
  refine ⟨new ++ new', List.append_assoc .., List.length_append, fun id hid => ?_⟩
  rcases List.mem_append.mp hid with hid | hid
  · exact (hids id hid).imp_right fun hlt => hlt.trans_le hbc
  · exact (hids' id hid).imp_left hab.trans

/-- A list of all ids of a window grows twice, and has all ids of the two windows then. -/
theorem append_window {xs ys zs : List ℕ} {a b c : ℕ} (hab : a ≤ b) (hbc : b ≤ c)
    (h : ∃ new, ys = xs ++ new ∧ ∀ id, id ∈ new ↔ a ≤ id ∧ id < b)
    (h' : ∃ new, zs = ys ++ new ∧ ∀ id, id ∈ new ↔ b ≤ id ∧ id < c) :
    ∃ new, zs = xs ++ new ∧ ∀ id, id ∈ new ↔ a ≤ id ∧ id < c := by
  obtain ⟨new, rfl, hmem⟩ := h
  obtain ⟨new', rfl, hmem'⟩ := h'
  refine ⟨new ++ new', List.append_assoc .., fun id => ?_⟩
  rw [List.mem_append, hmem, hmem']
  omega

/-- One tree after another: the constructs are appended, and so are those that stay in `iftmp`. -/
theorem Effect.append (h : Effect cs k good bad s s₁) (h' : Effect cs' k' good' bad' s₁ s₂) :
    Effect (cs ++ cs') (k + k') (good ∧ good') (bad ∨ bad') s s₂ := by
  have hf : s.fresh ≤ s₁.fresh := (Nat.le_add_right ..).trans_eq h.fresh.symm
  have hf' : s₁.fresh ≤ s₂.fresh := (Nat.le_add_right ..).trans_eq h'.fresh.symm
  refine ⟨?_, ?_, append_ids hf hf' h.iftmp h'.iftmp, append_window hf hf' h.blk h'.blk,
    h'.stray.trans h.stray, ?_, ?_⟩
  · rw [h'.fresh, h.fresh, List.length_append, Nat.add_assoc]
  · rw [h'.blktmp, h.blktmp]
  · intro id hid
    rw [h'.frame id (hid.trans_le hf), h.frame id hid]
  · have hframe := h'.frame
    rw [h.fresh] at hframe
    apply (h.records.congr fun id _ hid => hframe id hid).append
    rw [← h.fresh]
    exact h'.records

/-- After the opening of a `block` or `loop`, with nothing in `iftmp` that is its own. -/
theorem Inner.begin (s : FuncBlks) (start : ℕ) (type : UInt8) :
    Inner start type none [] 0 True False s (s.begin start type) where
  fresh := rfl
  blktmp := rfl
  iftmp := ⟨[], (List.append_nil _).symm, rfl, fun _ h => by cases h⟩
  blk := ⟨[], (List.append_nil _).symm, fun id => by
    change id ∈ [] ↔ s.fresh < id ∧ id < s.fresh + 1
    simp only [List.not_mem_nil, false_iff]
    omega⟩
  stray := rfl
  frame := fun id hid => by
    simp only [FuncBlks.begin, FuncBlks.setStart, FuncBlks.setEntry, FuncBlks.openBlk]
    rw [Function.update_of_ne hid.ne, Function.update_of_ne hid.ne]
  entry := by
    simp only [FuncBlks.begin, FuncBlks.setStart, FuncBlks.setEntry, FuncBlks.openBlk,
      Function.update_self]
    rfl
  records := .nil _ not_false _

/-- After the opening of an `if`, which waits for its `else` in `iftmp`. -/
theorem Inner.beginIf (s : FuncBlks) (start : ℕ) (type : UInt8) :
    Inner start type none [] 1 True False s ((s.begin start type).pushIf s.fresh) :=
  { Inner.begin s start type with
    iftmp := ⟨[s.fresh], rfl, rfl, fun id hid => by
      obtain rfl := List.mem_singleton.mp hid
      exact ⟨le_refl _, Nat.lt_succ_self _⟩⟩ }

/-- A tree inside a construct leaves it open, with more in `iftmp`. -/
theorem Inner.append (h : Inner start type els cs k good bad s s₁)
    (h' : Effect cs' k' good' bad' s₁ s₂) :
    Inner start type els (cs ++ cs') (k' + k) (good ∧ good') (bad ∨ bad') s s₂ := by
  have hf : s.fresh + 1 ≤ s₁.fresh := (Nat.le_add_right ..).trans_eq h.fresh.symm
  have hf' : s₁.fresh ≤ s₂.fresh := (Nat.le_add_right ..).trans_eq h'.fresh.symm
  have hifs := append_ids (Nat.le_of_succ_le hf) hf' h.iftmp h'.iftmp
  rw [Nat.add_comm k k'] at hifs
  refine ⟨?_, ?_, hifs, append_window hf hf' h.blk h'.blk, h'.stray.trans h.stray, ?_, ?_, ?_⟩
  · rw [h'.fresh, h.fresh, List.length_append, Nat.add_assoc]
  · rw [h'.blktmp, h.blktmp]
  · intro id hid
    rw [h'.frame id (hid.trans hf), h.frame id hid]
  · rw [h'.frame _ hf, h.entry]
  · have hframe := h'.frame
    rw [h.fresh] at hframe
    apply (h.records.congr fun id _ hid => hframe id hid).append
    rw [← h.fresh]
    exact h'.records

/-- An `else` after the then-branch: it goes to its own `if` when nothing of the branch is left in
`iftmp`, and to something in the branch otherwise. -/
theorem Inner.else_ (h : Effect cs k good bad ((s.begin start type).pushIf s.fresh) s₁)
    (hm : ∀ c ∈ cs, c.els < m) :
    ∃ id, s₁.iftmp.getLast? = some id ∧
      Inner start type (if k = 0 then some m else none) cs k (k = 0 ∧ good) bad s
        (s₁.popIf id m) := by
  have hI := (Inner.beginIf s start type).append h
  obtain ⟨ifs, hifs, hk, hids⟩ := h.iftmp
  have hfresh : s₁.fresh = s.fresh + 1 + cs.length := hI.fresh
  have hifs : s₁.iftmp = s.iftmp ++ s.fresh :: ifs := by
    rw [hifs]
    exact List.append_assoc s.iftmp [s.fresh] ifs
  have hids : ∀ id ∈ ifs, s.fresh + 1 ≤ id ∧ id < s₁.fresh := hids
  rcases List.eq_nil_or_concat ifs with rfl | ⟨ifs', id, rfl⟩
  · -- nothing left: the `else` goes to its own `if`
    obtain rfl : k = 0 := hk.symm
    refine ⟨s.fresh, by rw [hifs, List.getLast?_append_of_ne_nil] <;> simp, ?_⟩
    have hother : ∀ id, id ≠ s.fresh → (s₁.popIf s.fresh m).entry id = s₁.entry id :=
      fun id hid => Function.update_of_ne hid ..
    refine ⟨hI.fresh, hI.blktmp, ⟨[], ?_, rfl, fun _ h => by cases h⟩, hI.blk, hI.stray, ?_, ?_, ?_⟩
    · change s₁.iftmp.dropLast = _
      rw [hifs, List.dropLast_concat, List.append_nil]
    · intro id hid
      rw [hother id hid.ne, hI.frame id hid]
    · change Function.update s₁.entry s.fresh _ s.fresh = _
      rw [Function.update_self, hI.entry]
      rfl
    · refine (hI.records.congr fun id hid _ => hother id (by omega)).mono ?_ ?_
      · exact fun hg => ⟨trivial, hg.2⟩
      · exact .inr
  · -- the `else` goes to an `if` of the branch
    rw [List.concat_eq_append] at hifs hk hids
    rw [List.length_append, List.length_singleton] at hk
    have hid := hids id (List.mem_append_right _ (List.mem_singleton_self id))
    refine ⟨id, ?_, ?_⟩
    · rw [hifs, ← List.cons_append, ← List.append_assoc, List.getLast?_concat]
    rw [if_neg (by omega)]
    refine ⟨hI.fresh, hI.blktmp, ⟨s.fresh :: ifs', ?_, hk, ?_⟩, hI.blk, hI.stray, ?_, ?_, ?_⟩
    · change s₁.iftmp.dropLast = _
      rw [hifs, ← List.cons_append, ← List.append_assoc, List.dropLast_concat]
    · intro j hj
      change s.fresh ≤ j ∧ j < s₁.fresh
      rcases List.mem_cons.mp hj with rfl | hj
      · omega
      · have := hids j (List.mem_append_left _ hj)
        omega
    · intro j hj
      rw [← hI.frame j hj]
      exact Function.update_of_ne (by omega) ..
    · rw [← hI.entry]
      exact Function.update_of_ne (by omega) ..
    · exact (hI.records.set_els hm).mono (fun hg => by omega) .inr

/-- The `end` of a construct. An entry without an `els` gets its own end for one. With it the
construct is closed behind those inside it, and the entries from before are the same. -/
theorem Effect.of_inner (good' bad' : Prop) {c : Construct}
    (h : Inner c.start c.type els cs k good bad s s₁)
    (hg : good' → els.getD c.fin = c.els ∧ good)
    (hb : bad' → c.els < els.getD c.fin ∨ bad) :
    s₁.blktmp.getLast? = some s.fresh ∧
      Effect (c :: cs) k good' bad' s (s₁.closeBlk s.fresh c.fin) := by
  refine ⟨by rw [h.blktmp, List.getLast?_concat], ?_⟩
  obtain ⟨new, hnew, hmem⟩ := h.blk
  have hfresh : s₁.fresh = s.fresh + 1 + cs.length := h.fresh
  -- `end` gives an entry without an `els` its own end for one
  have hown : (s₁.closeBlk s.fresh c.fin).entry s.fresh =
      ⟨some c.start, some (els.getD c.fin), some c.fin, c.type⟩ := by
    change Function.update s₁.entry s.fresh _ s.fresh = _
    rw [Function.update_self, h.entry]
    cases els <;> rfl
  have hother : ∀ id, id ≠ s.fresh → (s₁.closeBlk s.fresh c.fin).entry id = s₁.entry id :=
    fun id hid => Function.update_of_ne hid ..
  refine ⟨?_, ?_, h.iftmp, ⟨new ++ [s.fresh], ?_, ?_⟩, h.stray, ?_, ?_⟩
  · change s₁.fresh = _
    rw [hfresh, List.length_cons]
    omega
  · change s₁.blktmp.dropLast = _
    rw [h.blktmp, List.dropLast_concat]
  · change s₁.blk ++ _ = _
    rw [hnew, List.append_assoc]
  · intro id
    change _ ↔ s.fresh ≤ id ∧ id < s₁.fresh
    rw [List.mem_append, hmem, List.mem_singleton]
    omega
  · intro id hid
    rw [hother id hid.ne, h.frame id hid]
  · have hrec := h.records.congr fun id hid _ => hother id (by omega : id ≠ s.fresh)
    refine (hrec.cons (c := c) (by rw [hown])).mono ?_ ?_
    · intro hgood
      obtain ⟨hels, hgood⟩ := hg hgood
      exact ⟨by rw [hown, hels]; rfl, hgood⟩
    · intro hbad
      exact (hb hbad).imp (fun hlt => ⟨_, by rw [hown], hlt⟩) id

end Effects

/-! ## The walk over a tree

The rounds of the walk, one constructor after the other. The only case with something in it is an
`if` with both branches: its `else` takes the last entry of `iftmp`, which is its own if and only if
no `if` of the then-branch is left there. -/

namespace Code

/-- The number of `if`s without an `else`, at any depth. -/
def elseless : Code → ℕ
  | .nil => 0
  | .instr _ _ rest => rest.elseless
  | .block _ _ inner rest => inner.elseless + rest.elseless
  | .ifThen _ thn rest => thn.elseless + 1 + rest.elseless
  | .ifElse _ thn els rest => els.elseless + thn.elseless + rest.elseless

/-- In every `if` with an `else`, all the `if`s in the then-branch have an `else`. The `if`s of the
else-branch may lack one, since its own `if` is no longer pending. -/
def Covered : Code → Prop
  | .nil => True
  | .instr _ _ rest => rest.Covered
  | .block _ _ inner rest => inner.Covered ∧ rest.Covered
  | .ifThen _ thn rest => thn.Covered ∧ rest.Covered
  | .ifElse _ thn els rest => (thn.elseless = 0 ∧ thn.Covered) ∧ els.Covered ∧ rest.Covered

instance decidableCovered : (code : Code) → Decidable code.Covered
  | .nil => isTrue trivial
  | .instr _ _ rest => decidableCovered rest
  | .block _ _ inner rest | .ifThen _ inner rest =>
    have := decidableCovered inner
    have := decidableCovered rest
    inferInstanceAs (Decidable (_ ∧ _))
  | .ifElse _ thn els rest =>
    have := decidableCovered thn
    have := decidableCovered els
    have := decidableCovered rest
    inferInstanceAs (Decidable ((_ ∧ _) ∧ _ ∧ _))

end Code

section Trees

variable {mem : Mem} {last p : ℕ} {s : FuncBlks} {bt : List UInt8}

/-- A round over the opening of a `block` or `loop`, whose block type takes `bt`. -/
theorem walkStep_block {loop : Bool} (hop : mem p = blockCode loop) (hbt : Leb128.Encoding 5 bt)
    (hm : Holds mem (p + 1) bt) (hlast : p + 1 + bt.length ≤ last) :
    (walkStep mem ⟨p, last⟩ s).res =
      .ok (⟨p + 1 + bt.length, last⟩, s.begin (p + 1 + bt.length) (blockCode loop)) := by
  have hread := getu32_of_encoding hbt hm hlast
  cases loop with
  | false =>
    apply walkStep_of_row ⟨0x02, some .block, some .block⟩ .ok (by rw [hop]; rfl) rfl
    rw [consume_block, hread]
    rfl
  | true =>
    apply walkStep_of_row ⟨0x03, some .loop, some .block⟩ .ok (by rw [hop]; rfl) rfl
    rw [consume_block, hread]
    rfl

/-- A round over the opening of an `if`, as long as no `else` has gone astray. -/
theorem walkStep_if (hop : mem p = fwInstrIf) (hbt : Leb128.Encoding 5 bt)
    (hm : Holds mem (p + 1) bt) (hlast : p + 1 + bt.length ≤ last) (hstray : s.stray = none) :
    (walkStep mem ⟨p, last⟩ s).res =
      .ok (⟨p + 1 + bt.length, last⟩,
        (s.begin (p + 1 + bt.length) fwInstrIf).pushIf s.fresh) := by
  apply walkStep_of_row ⟨0x04, some .if_, some .if_⟩ .ok (by rw [hop]; rfl) rfl
  rw [consume_if, getu32_of_encoding hbt hm hlast, hstray]
  rfl

/-- Wherever the tree lies, the walk goes over it and has the effect of its constructs. The window
is that of the function, and the lists are any. -/
def WalksOver (mem : Mem) (last : ℕ) (code : Code) : Prop :=
  ∀ {p : ℕ} {s : FuncBlks}, s.stray = none → code.AsRead → Holds mem p code.encode →
    p + code.encode.length ≤ last →
    ∃ l s', WalksTo mem last p s l (p + code.encode.length) s' ∧
      Effect (code.constructs p) code.elseless code.Covered (¬ code.Covered) s s'

namespace WalksOver

variable {op : UInt8} {imm : List UInt8} {loop : Bool} {inner thn els rest : Code}

theorem nil : WalksOver mem last .nil := fun {p s} _ _ _ _ =>
  ⟨[], s, .refl p s, (Effect.refl s).mono id fun h => h trivial⟩

theorem instr (hr : WalksOver mem last rest) : WalksOver mem last (.instr op imm rest) := by
  rintro p s hstray ⟨⟨instr, fn, hi, hc, htakes⟩, hread⟩ hm hlast
  simp only [Code.encode, holds_cons, holds_append] at hm
  rw [Code.end_instr] at hlast ⊢
  have hstep := walkStep_plain (s := s) (by rw [hm.1]; exact hi) hc (plain_of_takes htakes)
    (next_of_takes _ htakes hm.2.1 (by omega : p + 1 + imm.length ≤ last))
  obtain ⟨l, s', hl, heff⟩ := hr hstray hread hm.2.2 hlast
  exact ⟨_, s', .step (by omega) hstep hl, heff⟩

theorem block (hi : WalksOver mem last inner) (hr : WalksOver mem last rest) :
    WalksOver mem last (.block loop bt inner rest) := by
  rintro p s hstray ⟨hbt, hreadi, hreadr⟩ hm hlast
  simp only [Code.encode, holds_cons, holds_append] at hm
  obtain ⟨hop, hmbt, hmi, hend, hmr⟩ := hm
  rw [Code.end_block] at hlast ⊢
  have hopen := walkStep_block (s := s) hop hbt hmbt (by omega : _ ≤ last)
  -- what is inside, then the `end`, which finds this block on top of `blktmp`
  obtain ⟨li, s₁, hli, heffi⟩ :=
    hi (s := s.begin (p + 1 + bt.length) (blockCode loop)) hstray hreadi hmi (by omega)
  obtain ⟨hblk, heff⟩ := Effect.of_inner inner.Covered (¬ inner.Covered)
    (c := ⟨_, p + 1 + bt.length + inner.encode.length + 1, _, _⟩)
    ((Inner.begin s (p + 1 + bt.length) (blockCode loop)).append heffi)
    (fun h => ⟨rfl, trivial, h⟩) fun h => .inr (.inr h)
  have hstray₁ : s₁.stray = none := heff.stray.trans hstray
  have hclose := walkStep_end last hend hblk hstray₁
  obtain ⟨lr, s₂, hlr, heffr⟩ := hr
    (s := s₁.closeBlk s.fresh (p + 1 + bt.length + inner.encode.length + 1)) hstray₁ hreadr hmr
    hlast
  refine ⟨_, s₂, .step (by omega) hopen (hli.trans (.step (by omega) hclose hlr)), ?_⟩
  exact (heff.append heffr).mono id not_and_or.mp

theorem ifThen (ht : WalksOver mem last thn) (hr : WalksOver mem last rest) :
    WalksOver mem last (.ifThen bt thn rest) := by
  rintro p s hstray ⟨hbt, hreadt, hreadr⟩ hm hlast
  simp only [Code.encode, holds_cons, holds_append] at hm
  obtain ⟨hop, hmbt, hmt, hend, hmr⟩ := hm
  rw [Code.end_ifThen] at hlast ⊢
  have hopen := walkStep_if hop hbt hmbt (by omega : _ ≤ last) hstray
  -- as for a block, but the `if` itself stays behind in `iftmp`
  obtain ⟨lt, s₁, hlt, hefft⟩ :=
    ht (s := (s.begin (p + 1 + bt.length) fwInstrIf).pushIf s.fresh) hstray hreadt hmt (by omega)
  obtain ⟨hblk, heff⟩ := Effect.of_inner thn.Covered (¬ thn.Covered)
    (c := ⟨p + 1 + bt.length, p + 1 + bt.length + thn.encode.length + 1,
      p + 1 + bt.length + thn.encode.length + 1, fwInstrIf⟩)
    ((Inner.beginIf s (p + 1 + bt.length) fwInstrIf).append hefft)
    (fun h => ⟨rfl, trivial, h⟩) fun h => .inr (.inr h)
  have hstray₁ : s₁.stray = none := heff.stray.trans hstray
  have hclose := walkStep_end last hend hblk hstray₁
  obtain ⟨lr, s₂, hlr, heffr⟩ := hr
    (s := s₁.closeBlk s.fresh (p + 1 + bt.length + thn.encode.length + 1)) hstray₁ hreadr hmr hlast
  refine ⟨_, s₂, .step (by omega) hopen (hlt.trans (.step (by omega) hclose hlr)), ?_⟩
  exact (heff.append heffr).mono id not_and_or.mp

theorem ifElse (ht : WalksOver mem last thn) (he : WalksOver mem last els)
    (hr : WalksOver mem last rest) : WalksOver mem last (.ifElse bt thn els rest) := by
  rintro p s hstray ⟨hbt, hreadt, hreade, hreadr⟩ hm hlast
  simp only [Code.encode, holds_cons, holds_append] at hm
  obtain ⟨hop, hmbt, hmt, helse, hme, hend, hmr⟩ := hm
  rw [Code.end_ifElse] at hlast ⊢
  have hopen := walkStep_if hop hbt hmbt (by omega : _ ≤ last) hstray
  obtain ⟨lt, s₁, hlt, hefft⟩ :=
    ht (s := (s.begin (p + 1 + bt.length) fwInstrIf).pushIf s.fresh) hstray hreadt hmt (by omega)
  -- `id` is its own entry only when the branch left nothing in `iftmp`
  obtain ⟨id, hid, hinner⟩ := Inner.else_ (m := p + 1 + bt.length + thn.encode.length + 1) hefft
    fun c hc => by have := constructs_bounds c hc; omega
  have hswitch := walkStep_else last helse hid
  have hstray₁ : s₁.stray = none := hefft.stray.trans hstray
  obtain ⟨le, s₂, hle, heffe⟩ := he
    (s := s₁.popIf id (p + 1 + bt.length + thn.encode.length + 1)) hstray₁ hreade hme (by omega)
  obtain ⟨hblk, heff⟩ := Effect.of_inner
    ((thn.elseless = 0 ∧ thn.Covered) ∧ els.Covered)
    (¬ ((thn.elseless = 0 ∧ thn.Covered) ∧ els.Covered))
    (c := ⟨p + 1 + bt.length, p + 1 + bt.length + thn.encode.length + 1,
      p + 1 + bt.length + thn.encode.length + 1 + els.encode.length + 1, fwInstrIf⟩)
    (hinner.append heffe)
    (fun h => ⟨by rw [if_pos h.1.1]; rfl, h⟩) fun h => by
      by_cases hk : thn.elseless = 0
      · exact .inr ((not_and_or.mp h).imp (fun h' => fun hc => h' ⟨hk, hc⟩) fun h' => h')
      · -- its own entry has no `els` when it ends
        rw [if_neg hk]
        exact .inl (by dsimp only [Option.getD_none]; omega)
  have hstray₂ : s₂.stray = none := heffe.stray.trans hstray₁
  have hclose := walkStep_end last hend hblk hstray₂
  obtain ⟨lr, s₃, hlr, heffr⟩ := hr
    (s := s₂.closeBlk s.fresh (p + 1 + bt.length + thn.encode.length + 1 + els.encode.length + 1))
    hstray₂ hreadr hmr hlast
  refine ⟨_, s₃, .step (by omega) hopen (hlt.trans (.step (by omega) hswitch
    (hle.trans (.step (by omega) hclose hlr)))), ?_⟩
  refine (heff.append heffr).mono (fun h => ⟨⟨h.1, h.2.1⟩, h.2.2⟩) fun h => ?_
  rcases not_and_or.mp h with h' | h'
  · exact .inl fun hc => h' hc.1
  · exact (not_and_or.mp h').imp (fun h' hc => h' hc.2) fun h' => h'

end WalksOver

/-- The walk over any tree, by induction on the tree. -/
theorem walksOver_code (code : Code) : WalksOver mem last code := by
  induction code with
  | nil => exact WalksOver.nil
  | instr op imm rest ihr => exact WalksOver.instr ihr
  | block loop bt inner rest ihi ihr => exact WalksOver.block ihi ihr
  | ifThen bt thn rest iht ihr => exact WalksOver.ifThen iht ihr
  | ifElse bt thn els rest iht ihe ihr => exact WalksOver.ifElse iht ihe ihr

end Trees

/-! ## Whole functions

The walk starts from empty lists, so the effect of the tree is the block table. -/

/-- The bytes of a function: a tree and the `end` of the function. -/
def Code.body (code : Code) : List UInt8 := code.encode ++ [fwInstrEnd]

/-- Every construct is found by its start, with its own `els`: the position behind its `else`, or
that behind its `end` when it has none. -/
def ElseMatched (blks : FuncBlks) (cs : List Construct) : Prop :=
  ∀ c ∈ cs, ∃ b, fwInstrFindBlk blks c.start = some b ∧ b.els = some c.els

section Functions

variable {mem : Mem} {code : Code} {p : ℕ} {blks : FuncBlks}

/-- The entry of a construct is the one that is found. No other construct starts at the same byte,
so it does not matter in which order the closed blocks are looked through. -/
theorem find_of_effect {good bad : Prop} {k i : ℕ} {c : Construct}
    (h : Effect (code.constructs p) k good bad .init blks) (hc : (code.constructs p)[i]? = some c) :
    fwInstrFindBlk blks c.start = some (blks.entry i) := by
  obtain ⟨new, hnew, hmem⟩ := h.blk
  have hfresh : blks.fresh = (code.constructs p).length := by
    rw [h.fresh]
    exact Nat.zero_add _
  have hstart : ∀ {j d}, (code.constructs p)[j]? = some d →
      (blks.entry j).start = some d.start := by
    intro j d hd
    have hrec := h.records.start j d hd
    rwa [show FuncBlks.init.fresh + j = j from Nat.zero_add j] at hrec
  have hblk : ∀ j, j ∈ blks.blk ↔ j < (code.constructs p).length := by
    intro j
    rw [hnew]
    change j ∈ [] ++ new ↔ _
    rw [List.nil_append, hmem, hfresh]
    exact ⟨fun hj => hj.2, fun hj => ⟨Nat.zero_le _, hj⟩⟩
  apply find_of_unique ((hblk i).mpr (lt_of_getElem? hc)) (hstart hc)
  intro j hj hs
  have hjlt := (hblk j).mp hj
  have hd := List.getElem?_eq_getElem hjlt
  rw [hstart hd, Option.some.injEq] at hs
  -- constructs that start at the same position are the same one
  have hsorted := List.pairwise_iff_getElem.mp (constructs_start_lt code (p := p))
  obtain ⟨hilt, rfl⟩ := List.getElem?_eq_some_iff.mp hc
  rcases Nat.lt_trichotomy i j with hij | hij | hij
  · have := hsorted i j hilt hjlt hij
    omega
  · exact hij.symm
  · have := hsorted j i hjlt hilt hij
    omega

/-- Validation of a whole function returns, with the effect of its tree. -/
theorem validate_code (hread : code.AsRead) (hm : Holds mem p code.body) :
    ∃ blks, (fwModuleValidateInst mem ⟨p, p + code.body.length⟩ .init).res = .ok (.ok, blks) ∧
      Effect (code.constructs p) code.elseless code.Covered (¬ code.Covered) .init blks := by
  rw [Code.body, holds_append] at hm
  obtain ⟨hm, hend, -⟩ := hm
  have hlen : p + code.body.length = p + code.encode.length + 1 := by
    rw [Code.body, List.length_append, List.length_singleton, Nat.add_assoc]
  rw [hlen]
  obtain ⟨l, blks, hl, heff⟩ := walksOver_code code (s := .init) rfl hread hm
    (Nat.le_add_right (p + code.encode.length) 1)
  refine ⟨blks, ?_, heff⟩
  have hlast := walkStep_end_nil (p + code.encode.length + 1) hend heff.blktmp
  have hwalk := (hl.trans (.single (Nat.lt_succ_self _) hlast)).walk_eq
  exact validateInst_of_walk (by rw [hwalk])

/-- The block table of a tree in which no `else` is misplaced is the one that the tree gives. -/
theorem find_of_covered (hcov : code.Covered) (hread : code.AsRead)
    (hm : Holds mem p code.body) :
    ∃ blks, (fwModuleValidateInst mem ⟨p, p + code.body.length⟩ .init).res = .ok (.ok, blks) ∧
      ∀ c ∈ code.constructs p, fwInstrFindBlk blks c.start = some c.block := by
  obtain ⟨blks, hres, heff⟩ := validate_code hread hm
  refine ⟨blks, hres, fun c hc => ?_⟩
  obtain ⟨i, hi⟩ := List.mem_iff_getElem?.mp hc
  have hall := heff.records.all hcov i c hi
  rw [show FuncBlks.init.fresh + i = i from Nat.zero_add i] at hall
  rw [find_of_effect heff hi, hall]

/-- In a tree with a misplaced `else` some construct has an `els` too far on. -/
theorem not_elseMatched {k : ℕ} {good : Prop}
    (h : Effect (code.constructs p) k good (¬ code.Covered) .init blks) (hcov : ¬ code.Covered) :
    ¬ ElseMatched blks (code.constructs p) := by
  intro hmatch
  obtain ⟨i, c, e, hi, hels, hlt⟩ := h.records.wrong hcov
  rw [show FuncBlks.init.fresh + i = i from Nat.zero_add i] at hels
  obtain ⟨b, hb, hbels⟩ := hmatch c (List.mem_of_getElem? hi)
  rw [find_of_effect h hi, Option.some.injEq] at hb
  rw [← hb, hels, Option.some.injEq] at hbels
  omega

/-- Validation gives every `if` its own `else` if and only if no then-branch of an `if` with an
`else` holds an `if` without one.

The tree is one of the binary format (`hwf`), and its bytes are anywhere in memory (`hm`). The
equivalence is about the trees whose instructions the table of handlers gets right (`hread`). Where
it does not, the walk is out of step with the instructions behind the misread one, takes bytes of
immediates for opcodes, and what it records depends on these bytes. -/
theorem else_matched_iff (hwf : code.WellFormed) (hread : code.ReadAsWritten)
    (hm : Holds mem p code.body) :
    (∃ blks, (fwModuleValidateInst mem ⟨p, p + code.body.length⟩ .init).res = .ok (.ok, blks) ∧
      ElseMatched blks (code.constructs p)) ↔ code.Covered := by
  have hread := Code.asRead_of_readAsWritten hwf hread
  refine ⟨?_, ?_⟩
  · rintro ⟨blks, hres, hmatch⟩
    obtain ⟨blks', hres', heff⟩ := validate_code hread hm
    obtain rfl : blks' = blks := by
      rw [hres] at hres'
      exact (Prod.mk.inj (Except.ok.inj hres')).2.symm
    by_contra hcov
    exact not_elseMatched heff hcov hmatch
  · intro hcov
    obtain ⟨blks, hres, hfind⟩ := find_of_covered hcov hread hm
    exact ⟨blks, hres, fun c hc => ⟨c.block, hfind c hc, rfl⟩⟩

end Functions

/-- `if (if) else`: an `if` without an `else` in the then-branch of one with an `else`. -/
def stolenElse : Code := .ifElse [0x40] (.ifThen [0x40] .nil .nil) .nil .nil

/-- The block type of a block without results, in one byte. -/
theorem encodes_empty : ImmKind.blockType.Encodes [0x40] := ⟨0x40, rfl, .inl rfl⟩

theorem stolenElse_wellFormed : stolenElse.WellFormed :=
  ⟨encodes_empty, ⟨encodes_empty, trivial, trivial⟩, trivial, trivial⟩

/-- A tree with straight-line code, a loop and an `if` with both branches. -/
theorem else_matched_iff_loop :
    let code : Code := .block true [0x40] (.ifElse [0x40] (.instr 0x41 [0x01] .nil) .nil .nil) .nil
    code.WellFormed ∧ code.ReadAsWritten ∧
      ((∃ blks, (fwModuleValidateInst (memOf code.body) ⟨0, 0 + code.body.length⟩ .init).res =
        .ok (.ok, blks) ∧ ElseMatched blks (code.constructs 0)) ↔ code.Covered) := by
  intro code
  have hconst : (⟨0x41, [0x01]⟩ : WasmInstr).Valid := ⟨.s32, rfl, 1, by decide⟩
  have hwf : code.WellFormed :=
    ⟨encodes_empty, ⟨encodes_empty, ⟨⟨hconst, by decide⟩, trivial⟩, trivial, trivial⟩, trivial⟩
  have hread : code.ReadAsWritten := ⟨⟨⟨by decide, trivial⟩, trivial, trivial⟩, trivial⟩
  exact ⟨hwf, hread, else_matched_iff hwf hread (holds_memOf _)⟩

/-- The `else` of the outer `if` goes to the inner one, and the entry of the outer one has its
own end for an `els`. -/
theorem else_stolen :
    stolenElse.WellFormed ∧ stolenElse.ReadAsWritten ∧
      Holds (memOf stolenElse.body) 0 stolenElse.body ∧
      ¬ ∃ blks, (fwModuleValidateInst (memOf stolenElse.body) ⟨0, 0 + stolenElse.body.length⟩
        .init).res = .ok (.ok, blks) ∧ ElseMatched blks (stolenElse.constructs 0) := by
  refine ⟨stolenElse_wellFormed, ⟨⟨trivial, trivial⟩, trivial, trivial⟩, holds_memOf _, ?_⟩
  rintro ⟨blks, hres, hmatch⟩
  obtain ⟨b, hb, hels⟩ := hmatch ⟨2, 6, 7, fwInstrIf⟩ (by decide)
  have hfind : ∃ blks', (fwModuleValidateInst (memOf stolenElse.body)
      ⟨0, 0 + stolenElse.body.length⟩ .init).res = .ok (.ok, blks') ∧
      fwInstrFindBlk blks' 2 = some ⟨some 2, some 7, some 7, fwInstrIf⟩ := ⟨_, rfl, rfl⟩
  obtain ⟨blks', hres', hb'⟩ := hfind
  obtain rfl : blks' = blks := by
    rw [hres] at hres'
    exact (Prod.mk.inj (Except.ok.inj hres')).2.symm
  rw [hb'] at hb
  obtain rfl := Option.some.inj hb
  exact absurd hels (by decide)

end FastWasm
