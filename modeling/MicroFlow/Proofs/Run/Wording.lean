import MicroFlow.Proofs.Run.Safety

/-!
# Comparisons compare values

Solvers are compared by what their reports say about the nodes, and a report has the values of an
analysis in words.  In words a definition site goes by the numbers of its ends and not by the number
of its edge, a set is the list of its members, and the two kinds of undefined values are not told
apart.  Nothing else is lost: on the graph of a text that compiles, two tables of values have the
same words at all nodes only when they have the same values (`agreement_compares_values`).
-/

namespace MicroFlow

/-! ## Lists in words -/

variable {n i : Nat}

namespace Text

variable {c : Char}

/-- A text is cut at its first separator in one way. -/
theorem cut_unique {p : Char → Bool} {xs ys r s : List Char} {d : Char}
    (hx : ∀ a ∈ xs, p a = true) (hy : ∀ a ∈ ys, p a = true) (hc : p c = false) (hd : p d = false)
    (h : xs ++ c :: r = ys ++ d :: s) : xs = ys ∧ r = s := by
  have htake := congrArg (List.takeWhile p) h
  rw [List.takeWhile_append_of_pos hx, List.takeWhile_append_of_pos hy,
    List.takeWhile_cons_of_neg (by simp [hc]), List.takeWhile_cons_of_neg (by simp [hd]),
    List.append_nil, List.append_nil] at htake
  subst htake
  exact ⟨rfl, (List.cons.inj (List.append_cancel_left h)).2⟩

/-- Lists can be told apart by their text when a member has text of its own, and the character with
which the separator begins is in none. -/
theorem intercalate_inj {sep : List Char} {xs ys : List (List Char)}
    (hx : ∀ x ∈ xs, x ≠ [] ∧ c ∉ x) (hy : ∀ y ∈ ys, y ≠ [] ∧ c ∉ y)
    (h : (c :: sep).intercalate xs = (c :: sep).intercalate ys) : xs = ys := by
  have hclass : ∀ {x : List Char}, c ∉ x → ∀ a ∈ x, (a != c) = true := by
    intro x hc a ha
    simpa using fun heq : a = c => hc (heq ▸ ha)
  induction xs generalizing ys with
  | nil =>
    cases ys with
    | nil => rfl
    | cons y ys =>
      have hne : y ≠ [] := (hy y (List.mem_cons_self ..)).1
      cases ys <;> simp [hne] at h
  | cons x xs ih =>
    obtain ⟨hne, hc⟩ := hx x (List.mem_cons_self ..)
    cases ys with
    | nil => cases xs <;> simp [hne] at h
    | cons y ys =>
      obtain ⟨-, hd⟩ := hy y (List.mem_cons_self ..)
      cases xs with
      | nil =>
        cases ys with
        | nil => simpa using h
        | cons z ys =>
          rw [List.intercalate_singleton, List.intercalate_cons_cons] at h
          exact absurd (by simp [h]) hc
      | cons w xs =>
        cases ys with
        | nil =>
          rw [List.intercalate_singleton, List.intercalate_cons_cons] at h
          exact absurd (by simp [← h]) hd
        | cons z ys =>
          rw [List.intercalate_cons_cons, List.intercalate_cons_cons, List.append_assoc,
            List.append_assoc, List.cons_append, List.cons_append] at h
          -- the first separator ends the first element of both
          obtain ⟨rfl, hrest⟩ := cut_unique (hclass hc) (hclass hd) (by simp) (by simp) h
          rw [ih (fun x' hx' => hx x' (List.mem_cons_of_mem _ hx'))
            (fun y' hy' => hy y' (List.mem_cons_of_mem _ hy')) (List.append_cancel_left hrest)]

/-- Lists of texts between braces can be told apart. -/
theorem braced_inj (sep : String) {rest : List Char} (hsep : sep.toList = c :: rest)
    {xs ys : List String} (hx : ∀ x ∈ xs, x ≠ "" ∧ c ∉ x.toList)
    (hy : ∀ y ∈ ys, y ≠ "" ∧ c ∉ y.toList)
    (h : "\x7b" ++ sep.intercalate xs ++ "\x7d" = "\x7b" ++ sep.intercalate ys ++ "\x7d") :
    xs = ys := by
  have hlists : ∀ {zs : List String}, (∀ z ∈ zs, z ≠ "" ∧ c ∉ z.toList) →
      ∀ z ∈ zs.map String.toList, z ≠ [] ∧ c ∉ z := by
    intro zs hzs z hz
    obtain ⟨t, ht, rfl⟩ := List.mem_map.mp hz
    exact ⟨by simpa using (hzs t ht).1, (hzs t ht).2⟩
  have htext : sep.intercalate xs = sep.intercalate ys :=
    (String.append_right_inj _).mp ((String.append_left_inj _).mp h)
  have hchars := congrArg String.toList htext
  rw [String.toList_intercalate, String.toList_intercalate, hsep] at hchars
  exact List.map_injective_iff.mpr (fun _ _ => String.toList_inj.mp)
    (intercalate_inj (hlists hx) (hlists hy) hchars)

theorem isDigit_of_mem_toString (h : c ∈ (toString n).toList) : c.isDigit = true := by
  have hrepr : (toString n).toList = Nat.toDigits 10 n := Nat.toList_repr
  rw [hrepr] at h
  exact Nat.isDigit_of_mem_toDigits (by decide) (by decide) h

theorem toString_inj {m : Nat} (h : (toString m).toList = (toString n).toList) : m = n := by
  rw [← ofDigits_toString m, h, ofDigits_toString]

end Text

/-! ## Definitions -/

namespace Definitions

variable {g : Graph}

/-- How the site of an edge between two nodes is written. -/
def arrowText (p q : Nat) : String := "q" ++ toString p ++ "->q" ++ toString q

/-- The ends of an edge are read off its text. -/
theorem arrowText_inj {p q p' q' : Nat} (h : arrowText p q = arrowText p' q') :
    p = p' ∧ q = q' := by
  have hchars := congrArg String.toList h
  simp only [arrowText, String.toList_append] at hchars
  have hcut : (toString p).toList ++ '-' :: '>' :: 'q' :: (toString q).toList =
      (toString p').toList ++ '-' :: '>' :: 'q' :: (toString q').toList := by
    simpa using hchars
  obtain ⟨hp, hq⟩ := Text.cut_unique (fun _ => Text.isDigit_of_mem_toString)
    (fun _ => Text.isDigit_of_mem_toString) (by decide) (by decide) hcut
  exact ⟨Text.toString_inj hp, Text.toString_inj (by simpa using hq)⟩

variable {s : Nat} {text : String}

/-- The text of a site is a question mark or the ends of an edge. -/
theorem siteText_cases (hg : g.Coherent) (h : siteText g s = .ok text) :
    (s = entrySite ∧ text = "?") ∨ ∃ (i : Nat) (e : Edge) (p q : Nat), s = i + 1 ∧
      g.edges[i]? = some e ∧ e.source = .listed p ∧ e.target = .listed q ∧
      text = arrowText p q := by
  unfold siteText at h
  split at h
  · rename_i hs
    cases h
    exact .inl ⟨hs, rfl⟩
  · rename_i hs
    have hpos : s ≠ 0 := hs
    rw [bind_eq_ok] at h
    obtain ⟨e, he, h⟩ := h
    rw [Graph.edgeAt_eq_ok] at he
    have hmem := Array.mem_of_getElem? he
    obtain ⟨p, q, -, -, hsource, htarget⟩ := hg.ends_listed hmem
    rw [hg.ends hmem hsource htarget] at h
    cases h
    exact .inr ⟨s - 1, e, p, q, by omega, he, hsource, htarget, rfl⟩

/-- No two edges have the same ends, so sites can be told apart. -/
theorem siteText_inj (hg : g.Coherent) (hp : g.Plain) {t : Nat}
    (hs : siteText g s = .ok text) (ht : siteText g t = .ok text) : s = t := by
  have hmark : ∀ p q, "?" ≠ arrowText p q := by
    intro p q heq
    have hchars := congrArg (fun x : String => x.toList.head?) heq
    simp [arrowText, String.toList_append] at hchars
  rcases siteText_cases hg hs with ⟨rfl, rfl⟩ | ⟨i, e, p, q, rfl, hi, hsource, htarget, rfl⟩
  · rcases siteText_cases hg ht with ⟨rfl, -⟩ | ⟨-, -, p, q, -, -, -, -, htext⟩
    · rfl
    · exact absurd htext (hmark p q)
  · rcases siteText_cases hg ht with ⟨-, htext⟩ | ⟨j, f, p', q', rfl, hj, hsource', htarget', htext⟩
    · exact absurd htext.symm (hmark p q)
    · obtain ⟨rfl, rfl⟩ := arrowText_inj htext
      rw [hp.distinct i j e f hi hj (hsource.trans hsource'.symm) (htarget.trans htarget'.symm)]

/-- The text of a site can stand in a list. -/
theorem siteText_bare (hg : g.Coherent) (h : siteText g s = .ok text) :
    text ≠ "" ∧ ',' ∉ text.toList := by
  rcases siteText_cases hg h with ⟨-, rfl⟩ | ⟨-, -, p, q, -, -, -, -, rfl⟩
  · decide
  · have hdigits : ∀ n : Nat, ',' ∉ (toString n).toList := by
      intro n hmem
      exact absurd (Text.isDigit_of_mem_toString hmem) (by decide)
    refine ⟨fun heq => ?_, ?_⟩
    · have hchars := congrArg String.toList heq
      simp [arrowText, String.toList_append] at hchars
    · have hp := hdigits p
      have hq := hdigits q
      simp only [arrowText, String.toList_append, List.mem_append, not_or]
      exact ⟨⟨⟨by decide, hp⟩, by decide⟩, hq⟩

/-- So sets of sites can be told apart. -/
theorem setText_inj (hg : g.Coherent) (hp : g.Plain) {s t : BitSet}
    (hs : setText g s = .ok text) (ht : setText g t = .ok text) : s = t := by
  simp only [setText, bind_eq_ok] at hs ht
  obtain ⟨xs, hxs, hs⟩ := hs
  obtain ⟨ys, hys, ht⟩ := ht
  have hbare : ∀ {ms : List Nat} {zs : List String}, ms.mapM (siteText g) = .ok zs →
      ∀ z ∈ zs, z ≠ "" ∧ ',' ∉ z.toList := by
    intro ms zs hzs z hz
    obtain ⟨m, -, hm⟩ := (mem_of_mapM_eq_ok hzs).1 z hz
    exact siteText_bare hg hm
  have hlists : xs = ys := by
    refine Text.braced_inj ", " rfl (hbare hxs) (hbare hys) ?_
    exact Except.ok.inj (hs.trans ht.symm)
  subst hlists
  have hunique : Relator.LeftUnique fun (i : Nat) (text : String) => siteText g i = .ok text :=
    fun _ _ _ => siteText_inj hg hp
  have hmembers : s.members = t.members :=
    List.left_unique_forall₂' hunique (mapM_eq_ok.mp hxs) (mapM_eq_ok.mp hys)
  refine BitSet.ext fun i => ?_
  have hi : s.has i = true ↔ t.has i = true := by
    rw [← BitSet.mem_members, ← BitSet.mem_members, hmembers]
  exact Bool.eq_iff_iff.mpr hi

/-- And whole mappings. -/
theorem bindings_inj (hg : g.Coherent) (hp : g.Plain) {m n : Definitions} (hm : m.Shaped g.vars)
    (hn : n.Shaped g.vars) {bs : List Binding} (hbm : m.bindings g = .ok bs)
    (hbn : n.bindings g = .ok bs) : m = n := by
  have hat : ∀ {l : Definitions}, l.bindings g = .ok bs → ∀ (i : Nat) (hi : i < g.vars.length),
      ∃ b, bs[i]? = some b ∧ setText g (l.setAt i) = .ok b.value := by
    intro l hl i hi
    have hall := mapM_eq_ok.mp hl
    have hlen := hall.length_eq
    rw [List.length_zipIdx] at hlen
    have hget := hall.get (i := i) (by simpa using hi) (by omega)
    simp only [List.get_eq_getElem, List.getElem_zipIdx, bind_eq_ok, Nat.zero_add] at hget
    obtain ⟨text, htext, hb⟩ := hget
    refine ⟨bs[i], List.getElem?_eq_getElem (by omega), ?_⟩
    rw [← Except.ok.inj hb]
    exact htext
  have hset : ∀ i, i < g.vars.length → m.setAt i = n.setAt i := by
    intro i hi
    obtain ⟨b, hb, hmi⟩ := hat hbm i hi
    obtain ⟨b', hb', hni⟩ := hat hbn i hi
    cases hb.symm.trans hb'
    exact setText_inj hg hp hmi hni
  refine List.ext_getElem (hm.trans hn.symm) fun i hi hi' => ?_
  have hlt : i < g.vars.length := by
    have hshape : m.length = g.vars.length := hm
    omega
  simpa [setAt, hi, hi'] using hset i hlt

end Definitions

/-! ## Live variables and signs -/

/-- Sets of live variables can be told apart. -/
theorem LiveSet.bindings_inj {vars : Variables} {m n : LiveSet}
    (hm : ∀ i, m.has i = true → i < vars.length) (hn : ∀ i, n.has i = true → i < vars.length)
    (h : LiveSet.bindings vars m = LiveSet.bindings vars n) : m = n := by
  refine BitSet.ext fun i => ?_
  by_cases hi : i < vars.length
  · have hat := congrArg (fun bs : List Binding => bs[i]?) h
    simp only [LiveSet.bindings, List.getElem?_map, List.getElem?_zipIdx,
      List.getElem?_eq_getElem hi] at hat
    simp only [Option.map_some, Option.some.injEq, Binding.mk.injEq, true_and, Nat.zero_add] at hat
    cases hmi : m.has i <;> cases hni : n.has i <;> simp_all
  · have hmi : m.has i = false := Bool.eq_false_iff.mpr fun h => hi (hm i h)
    have hni : n.has i = false := Bool.eq_false_iff.mpr fun h => hi (hn i h)
    rw [hmi, hni]

/-- So can sets of signs. -/
theorem SignSet.text_inj {s t : SignSet} (hs : s.spare = 0) (ht : t.spare = 0)
    (h : s.text = t.text) : s = t := by
  have hbare : ∀ u : SignSet, ∀ x ∈ u.signs.map Sign.text, x ≠ "" ∧ ',' ∉ x.toList := by
    intro u x hx
    obtain ⟨a, -, rfl⟩ := List.mem_map.mp hx
    cases a <;> decide
  have hinj : Function.Injective Sign.text := by
    intro a b
    cases a <;> cases b <;> decide
  have hsigns : s.signs = t.signs :=
    List.map_injective_iff.mpr hinj (Text.braced_inj "," rfl (hbare s) (hbare t) h)
  refine SignSet.ext' (fun x => ?_) (hs.trans ht.symm)
  have hx : s.has x = true ↔ t.has x = true := by
    have hmem : ∀ u : SignSet, x ∈ u.signs ↔ u.has x = true := by
      intro u
      simp [SignSet.signs, Sign.mem_all]
    rw [← hmem, ← hmem, hsigns]
  exact Bool.eq_iff_iff.mpr hx

/-- Different states that can occur are put into different words. -/
theorem Signs.bindings_inj {vars : Variables} {m n : Signs} (hm : m.Shaped vars)
    (hn : n.Shaped vars)
    (hms : ∀ i, (m.slot i).spare = 0) (hns : ∀ i, (n.slot i).spare = 0)
    (hmr : m.unreachable = false) (hnr : n.unreachable = false)
    (h : Signs.bindings vars m = Signs.bindings vars n) : m = n := by
  have hslot : ∀ i, i < slotCount vars → m.slot i = n.slot i := by
    intro i hi
    have hlt : i < (vars.flatMap slotNames).length := (length_slotNames vars).symm ▸ hi
    have hat := congrArg (fun bs : List Binding => bs[i]?) h
    simp only [Signs.bindings, List.getElem?_map, List.getElem?_zipIdx,
      List.getElem?_eq_getElem hlt] at hat
    simp only [Option.map_some, Option.some.injEq, Binding.mk.injEq, true_and, Nat.zero_add] at hat
    exact SignSet.text_inj (hms i) (hns i) hat
  have hslots : m.slots = n.slots := by
    have hmlen : m.slots.length = slotCount vars := hm
    refine List.ext_getElem (hm.trans hn.symm) fun i hi hi' => ?_
    simpa [slot, hi, hi'] using hslot i (by omega)
  obtain ⟨slots, unreachable⟩ := m
  cases hslots
  cases hmr.trans hnr.symm
  rfl

/-! ## Reports -/

namespace Comparison

/-- When two lists of nodes are taken to be the same. -/
theorem sameNodes_iff {xs ys : List Report.Node} : sameNodes xs ys = true ↔
    List.Forall₂ (fun x y => x.id = y.id ∧ x.defined = y.defined ∧ x.bindings = y.bindings)
      xs ys := by
  induction xs generalizing ys with
  | nil => cases ys <;> simp [sameNodes]
  | cons x xs ih =>
    cases ys with
    | nil => simp [sameNodes]
    | cons y ys => simp [sameNodes, ih, and_assoc]

end Comparison

namespace Analysis

variable {M : Type}

/-- A value as far as it counts: a mapping of a state that cannot occur is no better than none. -/
def counted (a : Analysis M) (x : Option M) : Option M := x.filter a.reachable

/--
Reports of two tables of values can be made, and the comparison of their nodes tells whether the
tables have the same value at every node, as far as values count.  The mappings in the tables are
those that satisfy `P`.
-/
def TellsApart (a : Analysis M) (g : Graph) (P : M → Prop) : Prop :=
  ∀ (solver solver' : String) (findings findings' : List Finding) (s t : Solution M),
    s.values.size = g.nodes.size → t.values.size = g.nodes.size →
    (∀ i m, s.values.value i = some m → P m) → (∀ i m, t.values.value i = some m → P m) →
    ∃ r r', Report.ofSolution a g solver s findings = .ok r ∧
      Report.ofSolution a g solver' t findings' = .ok r' ∧
      (Comparison.sameNodes r.nodeList r'.nodeList = true ↔
        ∀ i, i < g.nodes.size → a.counted (s.values.value i) = a.counted (t.values.value i))

variable {a : Analysis M} {g : Graph}

/-- What the entry of a node says: the words of a value that counts, or that there is none. -/
theorem ofValue_cases {x : Option M} {n : Report.Node}
    (h : Report.Node.ofValue a g i x = .ok n) : n.id = i ∧
      ((a.counted x = none ∧ n.defined = false ∧ n.bindings = []) ∨
        ∃ m, a.counted x = some m ∧ x = some m ∧ a.reachable m = true ∧ n.defined = true ∧
          a.bindings m = .ok n.bindings) := by
  rw [Report.Node.ofValue, bind_eq_ok] at h
  obtain ⟨node, -, h⟩ := h
  cases x with
  | none =>
    cases h
    exact ⟨rfl, .inl ⟨rfl, rfl, rfl⟩⟩
  | some m =>
    cases hreach : a.reachable m with
    | false =>
      simp only [hreach, Bool.false_eq_true, if_false] at h
      cases h
      exact ⟨rfl, .inl ⟨by simp [counted, hreach], rfl, rfl⟩⟩
    | true =>
      simp only [hreach, if_true, bind_eq_ok] at h
      obtain ⟨bs, hbs, h⟩ := h
      cases h
      exact ⟨rfl, .inr ⟨m, by simp [counted, hreach], rfl, hreach, rfl, hbs⟩⟩

/-- Two entries say the same exactly when the values are the same. -/
theorem entries_eq_iff {P : M → Prop}
    (hinj : ∀ m n bs, P m → P n → a.reachable m = true → a.reachable n = true →
      a.bindings m = .ok bs → a.bindings n = .ok bs → m = n)
    {x y : Option M} (hx : ∀ m, x = some m → P m) (hy : ∀ m, y = some m → P m)
    {n n' : Report.Node} (hn : Report.Node.ofValue a g i x = .ok n)
    (hn' : Report.Node.ofValue a g i y = .ok n') :
    (n.id = n'.id ∧ n.defined = n'.defined ∧ n.bindings = n'.bindings) ↔
    a.counted x = a.counted y := by
  obtain ⟨hid, hn⟩ := ofValue_cases hn
  obtain ⟨hid', hn'⟩ := ofValue_cases hn'
  have hids : n.id = n'.id := hid.trans hid'.symm
  rcases hn with ⟨hc, hd, hb⟩ | ⟨m, hc, rfl, hr, hd, hb⟩
  · rcases hn' with ⟨hc', hd', hb'⟩ | ⟨m', hc', rfl, hr', hd', hb'⟩
    · simp [hids, hc, hc', hd, hd', hb, hb']
    · simp [hc, hc', hd, hd']
  · rcases hn' with ⟨hc', hd', hb'⟩ | ⟨m', hc', rfl, hr', hd', hb'⟩
    · simp [hc, hc', hd, hd']
    · rw [hc, hc', hd, hd', Option.some.injEq]
      constructor
      · rintro ⟨-, -, heq⟩
        exact hinj m m' n.bindings (hx m rfl) (hy m' rfl) hr hr' hb (heq ▸ hb')
      · rintro rfl
        exact ⟨hids, rfl, Except.ok.inj (hb.symm.trans hb')⟩

/-- What can be put into words, each mapping into its own, can be told apart in a report. -/
theorem tellsApart (hg : g.Coherent) {P : M → Prop}
    (hbind : ∀ m, P m → ∃ bs, a.bindings m = .ok bs)
    (hinj : ∀ m n bs, P m → P n → a.reachable m = true → a.reachable n = true →
      a.bindings m = .ok bs → a.bindings n = .ok bs → m = n) : a.TellsApart g P := by
  intro solver solver' findings findings' s t hs ht hPs hPt
  obtain ⟨r, hr⟩ := Report.exists_ofSolution hg solver findings hs fun i m hm =>
    hbind m (hPs i m hm)
  obtain ⟨r', hr'⟩ := Report.exists_ofSolution hg solver' findings' ht fun i m hm =>
    hbind m (hPt i m hm)
  refine ⟨r, r', hr, hr', ?_⟩
  -- the entries of a report are the values at the same places, put in words
  have hnodes : ∀ {u : Solution M} {solver : String} {findings : List Finding} {r : Report},
      u.values.size = g.nodes.size → Report.ofSolution a g solver u findings = .ok r →
      r.nodeList.length = g.nodes.size ∧ ∀ (i : Nat) (hi : i < r.nodeList.length),
        Report.Node.ofValue a g i (u.values.value i) = .ok r.nodeList[i] := by
    intro u solver findings r hu hr
    have hall := mapM_eq_ok.mp (Report.nodeList_ofSolution hr)
    have hlen := hall.length_eq
    simp only [List.length_zipIdx, Array.length_toList] at hlen
    refine ⟨by omega, fun i hi => ?_⟩
    have hi' : i < u.values.size := by omega
    have hget := hall.get (i := i) (by simpa using hi') hi
    simpa [Values.value, hi'] using hget
  obtain ⟨hlen, hat⟩ := hnodes hs hr
  obtain ⟨hlen', hat'⟩ := hnodes ht hr'
  have hentry : ∀ (i : Nat) (hi : i < r.nodeList.length) (hi' : i < r'.nodeList.length), _ :=
    fun i hi hi' => entries_eq_iff hinj (hPs i) (hPt i) (hat i hi) (hat' i hi')
  rw [Comparison.sameNodes_iff, List.forall₂_iff_get]
  constructor
  · rintro ⟨-, hall⟩ i hi
    exact (hentry i (hlen ▸ hi) (hlen' ▸ hi)).mp (hall i (hlen ▸ hi) (hlen' ▸ hi))
  · intro hall
    exact ⟨hlen.trans hlen'.symm, fun i hi hi' => (hentry i hi hi').mpr (hall i (hlen ▸ hi))⟩

end Analysis

/--
On the graph of a text that compiles, the comparison of reports compares values, for each analysis.
The two tables can be any, as long as live variables are variables of the program, definitions are
sites of the program, and states have a set of signs for every slot; a state that cannot occur
counts as none.  No two sites of definitions have the same words.
-/
theorem agreement_compares_values {src : Text.Bytes} {b : Built} (h : compile src = .ok b) :
    ((liveVariables b.graph).TellsApart b.graph fun m =>
        ∀ i, m.has i = true → i < b.graph.vars.length) ∧
      ((reachingDefinitions b.graph).TellsApart b.graph fun m =>
        m.Shaped b.graph.vars ∧ ∀ i, (m.setAt i).Within (b.graph.edges.size + 1)) ∧
      ((signDetection b.graph).TellsApart b.graph fun m =>
        m.Shaped b.graph.vars ∧ ∀ i, (m.slot i).spare = 0) ∧
      ∀ s t text, Definitions.siteText b.graph s = .ok text →
        Definitions.siteText b.graph t = .ok text → s = t := by
  obtain ⟨p, -, hbuild⟩ := compile_eq_ok h
  have hg := coherent_of_build hbuild
  have hp := plain_graph_of_build hbuild
  refine ⟨?_, ?_, ?_, fun s t text => Definitions.siteText_inj hg hp⟩
  · refine Analysis.tellsApart hg (fun m _ => ⟨_, rfl⟩) fun m n bs hm hn _ _ hbm hbn => ?_
    exact LiveSet.bindings_inj hm hn (Except.ok.inj (hbm.trans hbn.symm))
  · refine Analysis.tellsApart hg (fun m hm => Definitions.exists_bindings hg hm.2) ?_
    intro m n bs hm hn _ _ hbm hbn
    exact Definitions.bindings_inj hg hp hm.1 hn.1 hbm hbn
  · refine Analysis.tellsApart hg (fun m _ => ⟨_, rfl⟩) fun m n bs hm hn hmr hnr hbm hbn => ?_
    exact Signs.bindings_inj hm.1 hn.1 hm.2 hn.2 (by simpa [signDetection] using hmr)
      (by simpa [signDetection] using hnr) (Except.ok.inj (hbm.trans hbn.symm))

/-- The same value at all of `n` nodes. -/
def evenTable {M : Type} (n : Nat) (x : Option M) : Solution M := ⟨Array.replicate n x, 0⟩

theorem value_evenTable {M : Type} {x : Option M} :
    (evenTable n x).values.value i = if i < n then x else none := by
  unfold evenTable Values.value
  rw [Array.getElem?_replicate]
  split <;> rfl

/-- Two assignments to a variable that lead to one node. -/
def forkText : Text.Bytes :=
  Text.toBytes "int x; if (x > 0) \x7b x := 1; \x7d else \x7b x := 2; \x7d write x;"

/-- Of the two assignments, which have the same target, the definitions of one are told from those
of the other.  A state that cannot occur is not told from none. -/
theorem agreement_compares_values_fork :
    ∃ b, compile forkText = .ok b ∧
      (∃ r r', Report.ofSolution (reachingDefinitions b.graph) b.graph "fifo"
          (evenTable 6 (some [.single 4])) [] = .ok r ∧
        Report.ofSolution (reachingDefinitions b.graph) b.graph "lifo"
          (evenTable 6 (some [.single 5])) [] = .ok r' ∧
        Comparison.sameNodes r.nodeList r'.nodeList = false) ∧
      ∃ r r', Report.ofSolution (signDetection b.graph) b.graph "fifo"
          (evenTable 6 (some ⟨[.empty], true⟩)) [] = .ok r ∧
        Report.ofSolution (signDetection b.graph) b.graph "lifo" (evenTable 6 none) [] = .ok r' ∧
        Comparison.sameNodes r.nodeList r'.nodeList = true := by
  have hsize : (compile forkText).toOption.map (fun b =>
      (b.graph.nodes.size, b.graph.edges.size, b.graph.vars.length, Signs.slotCount b.graph.vars)) =
      some (6, 6, 1, 1) := by decide +kernel
  cases hb : compile forkText with
  | error e => simp [hb, Except.toOption] at hsize
  | ok b =>
    obtain ⟨hnodes, hedges, hvars, hslots⟩ : b.graph.nodes.size = 6 ∧ b.graph.edges.size = 6 ∧
        b.graph.vars.length = 1 ∧ Signs.slotCount b.graph.vars = 1 := by
      simpa [hb, Except.toOption] using hsize
    obtain ⟨-, hreaching, hsigns, -⟩ := agreement_compares_values hb
    have hsites : ∀ j, j < 7 → ∀ (i : Nat) (m : Definitions),
        (evenTable 6 (some [BitSet.single j])).values.value i = some m →
        m.Shaped b.graph.vars ∧ ∀ i, (m.setAt i).Within (b.graph.edges.size + 1) := by
      intro j hj i m hm
      rw [value_evenTable] at hm
      split at hm
      · cases hm
        refine ⟨hvars.symm, fun i => ?_⟩
        cases i with
        | zero =>
          intro s hs
          have heq : j = s := by simpa [Definitions.setAt] using hs
          omega
        | succ i =>
          intro s hs
          simp [Definitions.setAt] at hs
      · cases hm
    refine ⟨b, rfl, ?_, ?_⟩
    · obtain ⟨r, r', hr, hr', hsame⟩ := hreaching "fifo" "lifo" [] []
        (evenTable 6 (some [.single 4]))
        (evenTable 6 (some [.single 5])) hnodes.symm hnodes.symm (hsites 4 (by decide))
          (hsites 5 (by decide))
      refine ⟨r, r', hr, hr', Bool.eq_false_iff.mpr fun heq => ?_⟩
      have hat := hsame.mp heq 0 (by omega)
      rw [value_evenTable, value_evenTable] at hat
      have hne : ¬ (some [BitSet.single 4] : Option Definitions) = some [BitSet.single 5] := by
        decide
      exact hne hat
    · obtain ⟨r, r', hr, hr', hsame⟩ := hsigns "fifo" "lifo" [] []
        (evenTable 6 (some ⟨[.empty], true⟩))
        (evenTable 6 none) hnodes.symm hnodes.symm (by
          intro i m hm
          rw [value_evenTable] at hm
          split at hm
          · cases hm
            refine ⟨hslots.symm, fun i => ?_⟩
            cases i <;> rfl
          · cases hm) (by
          intro i m hm
          rw [value_evenTable] at hm
          split at hm <;> cases hm)
      refine ⟨r, r', hr, hr', hsame.mpr fun i _ => ?_⟩
      rw [value_evenTable, value_evenTable]
      split <;> rfl

end MicroFlow
