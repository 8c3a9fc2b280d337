import Mathlib.Data.List.Basic
import MicroFlow.Proofs.Text.Bytes
import MicroFlow.Run.Cached

/-!
# Keys tell runs apart

The key of a run is a digest in hexadecimal form.  Hexadecimal text can be read back,
so two keys are equal only when the digests are; and as long as the names hold no zero
byte, what a key is the digest of can be taken apart at its first two zero bytes, whatever
the source holds.
-/

namespace MicroFlow

/-! ## Hexadecimal text -/

variable {x y : Bytes} {s t : String}

namespace Text

theorem hexValue?_hexDigit : ∀ n < 16, hexValue? (hexDigit n) = some n := by decide +kernel

/-- Two digits for every byte are read back. -/
theorem ofHexDigits?_flatMap (bytes : Bytes) :
    ofHexDigits? (bytes.flatMap fun b => [hexDigit (b.toNat / 16), hexDigit (b.toNat % 16)]) =
      some bytes := by
  induction bytes with
  | nil => rfl
  | cons b bytes ih =>
    have hhi : b.toNat / 16 < 16 := by have := b.toNat_lt; omega
    have hlo : b.toNat % 16 < 16 := by omega
    have hb : UInt8.ofNat (16 * (b.toNat / 16) + b.toNat % 16) = b := by
      rw [Nat.div_add_mod, UInt8.ofNat_toNat]
    rw [List.flatMap_cons, List.cons_append, List.cons_append, List.nil_append, ofHexDigits?,
      hexValue?_hexDigit _ hhi, hexValue?_hexDigit _ hlo, ih]
    show some (UInt8.ofNat (16 * (b.toNat / 16) + b.toNat % 16) :: bytes) = some (b :: bytes)
    rw [hb]

/-- Hexadecimal text stands for the bytes that it was made from. -/
theorem ofHex?_toHex (bytes : Bytes) : ofHex? (toHex bytes) = some bytes := by
  rw [ofHex?, toHex, String.toList_ofList, ofHexDigits?_flatMap]

theorem toHex_inj (h : toHex x = toHex y) : x = y := by
  have hx := ofHex?_toHex x
  rw [h, ofHex?_toHex] at hx
  exact (Option.some.inj hx).symm

end Text

open Text (Bytes toBytes)

/-- Texts without zero bytes can be taken apart at the first one. -/
theorem Cache.append_zero_inj {u v : Bytes} (hx : 0 ∉ x) (hy : 0 ∉ y)
    (h : x ++ 0 :: u = y ++ 0 :: v) : x = y ∧ u = v := by
  induction x generalizing y with
  | nil =>
    cases y with
    | nil => exact ⟨rfl, (List.cons.inj h).2⟩
    | cons b y => exact absurd (List.cons.inj h).1 fun h => hy (h ▸ List.mem_cons_self)
  | cons a x ih =>
    cases y with
    | nil => exact absurd (List.cons.inj h).1 fun h => hx (h ▸ List.mem_cons_self)
    | cons b y =>
      obtain ⟨rfl, htail⟩ := List.cons.inj h
      obtain ⟨rfl, huv⟩ := ih (fun h => hx (List.mem_cons_of_mem _ h))
        (fun h => hy (List.mem_cons_of_mem _ h)) htail
      exact ⟨rfl, huv⟩

/-- The parts of the material of a key can be told apart when the names hold no zero byte. -/
theorem Cache.keyMaterial_inj {a b : String} (ha : 0 ∉ toBytes a)
    (hb : 0 ∉ toBytes b) (hs : 0 ∉ toBytes s) (ht : 0 ∉ toBytes t)
    (h : keyMaterial x a s = keyMaterial y b t) : a = b ∧ s = t ∧ x = y := by
  obtain ⟨hab, h⟩ := append_zero_inj ha hb h
  obtain ⟨hst, h⟩ := append_zero_inj hs ht h
  exact ⟨Text.toBytes_inj hab, Text.toBytes_inj hst, List.append_cancel_right h⟩

/-! ## Names of analyses and solvers -/

/-- An analysis keeps the name it is asked for by. -/
theorem AnalysisKind.name_ofName (s : String) : (AnalysisKind.ofName s).name = s := by
  rw [AnalysisKind.ofName]
  cases h : AnalysisKind.all.find? (·.name == s) with
  | none => rfl
  | some k =>
    have hk := List.find?_some h
    exact eq_of_beq hk

theorem AnalysisKind.ofName_eq (h : (AnalysisKind.ofName s).name = (AnalysisKind.ofName t).name) :
    AnalysisKind.ofName s = AnalysisKind.ofName t := by
  rw [AnalysisKind.name_ofName, AnalysisKind.name_ofName] at h
  rw [h]

namespace SolverKind

/-- A solver by its name: chaotic, a worklist, or none that is known. -/
theorem ofName_cases (s : String) :
    ofName s = chaotic ∨ (∃ strategy, ofName s = worklist strategy) ∨
      (ofName s = unknown s ∧ ∀ strategy : Strategy, strategy.name ≠ s) := by
  rw [ofName]
  cases hall : all.find? (·.name == s) with
  | some k =>
    have hk := List.mem_of_find?_eq_some hall
    simp only [all, List.mem_cons, List.not_mem_nil, or_false] at hk
    obtain rfl | rfl | rfl | rfl := hk
    · exact .inl rfl
    · exact .inr (.inl ⟨_, rfl⟩)
    · exact .inr (.inl ⟨_, rfl⟩)
    · exact .inr (.inl ⟨_, rfl⟩)
  | none =>
    cases hname : Strategy.ofName? s with
    | some strategy => exact .inr (.inl ⟨strategy, rfl⟩)
    | none =>
      refine .inr (.inr ⟨rfl, fun strategy hs => ?_⟩)
      have hne := List.find?_eq_none.mp hname strategy (by cases strategy <;> decide)
      exact hne (beq_iff_eq.mpr hs)

theorem chaotic_ne_worklist (s : String) : "chaotic" ≠ "worklist-" ++ s := by
  intro h
  have h := congrArg String.toList h
  rw [String.toList_append] at h
  exact absurd (List.cons.inj h).1 (by decide)

/-- Solvers with one label are one solver. -/
theorem ofName_eq (h : (ofName s).label = (ofName t).label) : ofName s = ofName t := by
  obtain hs | ⟨p, hs⟩ | ⟨hs, hsname⟩ := ofName_cases s <;>
    obtain ht | ⟨q, ht⟩ | ⟨ht, htname⟩ := ofName_cases t <;> rw [hs, ht] at h ⊢
  · exact absurd h (chaotic_ne_worklist _)
  · exact absurd h (chaotic_ne_worklist _)
  · exact absurd h.symm (chaotic_ne_worklist _)
  · have hpq : p.name = q.name := (String.append_right_inj _).mp h
    cases p <;> cases q <;> first | rfl | exact absurd hpq (by decide)
  · exact absurd ((String.append_right_inj _).mp h) (htname p)
  · exact absurd h.symm (chaotic_ne_worklist _)
  · exact absurd ((String.append_right_inj _).mp h).symm (hsname q)
  · rw [(String.append_right_inj _).mp h]

/-- Labels of plain names have no zero byte. -/
theorem zero_notMem_label (h : 0 ∉ toBytes s) : 0 ∉ toBytes (ofName s).label := by
  obtain hs | ⟨p, hs⟩ | ⟨hs, -⟩ := ofName_cases s
  · rw [hs]
    decide +kernel
  · rw [hs]
    cases p <;> decide +kernel
  · rw [hs]
    show 0 ∉ toBytes ("worklist-" ++ s)
    rw [Text.toBytes_append, List.mem_append, not_or]
    exact ⟨by decide +kernel, h⟩

end SolverKind

/-! ## Calls by name -/

/-- A call for an analysis, by the names of the analysis and the solver. -/
structure Ask where
  source : Bytes
  analysis : String
  solver : String
deriving DecidableEq, Repr

namespace Ask

/-- What is asked for; the call is not cancelled. -/
def request (a : Ask) : Request := ⟨a.source, .ofName a.analysis, .ofName a.solver, false⟩

/-- The bytes that the key is the digest of. -/
def material (a : Ask) : Bytes :=
  Cache.keyMaterial a.source a.request.analysis.name a.request.solver.label

/-- The names hold no zero byte; the source may hold any bytes. -/
def Plain (a : Ask) : Prop := 0 ∉ toBytes a.analysis ∧ 0 ∉ toBytes a.solver

instance (a : Ask) : Decidable a.Plain := inferInstanceAs (Decidable (_ ∧ _))

/-- Analysis, solver and source can be read off the material of a key. -/
theorem material_inj {a b : Ask} (ha : a.Plain) (hb : b.Plain) (h : a.material = b.material) :
    a.request.analysis.name = b.request.analysis.name ∧
      a.request.solver.label = b.request.solver.label ∧ a.source = b.source := by
  have hname : ∀ c : Ask, c.Plain → 0 ∉ toBytes c.request.analysis.name := by
    intro c hc
    show 0 ∉ toBytes (AnalysisKind.ofName c.analysis).name
    rw [AnalysisKind.name_ofName]
    exact hc.1
  exact Cache.keyMaterial_inj (hname a ha) (hname b hb) (SolverKind.zero_notMem_label ha.2)
    (SolverKind.zero_notMem_label hb.2) h

/-- Calls with one key ask for one thing, if the digest does not confuse them. -/
theorem request_eq_of_key {a b : Ask} (ha : a.Plain) (hb : b.Plain)
    (hdigest : Sha256.digest a.material = Sha256.digest b.material → a.material = b.material)
    (h : a.request.key = b.request.key) : a.request = b.request := by
  obtain ⟨hname, hlabel, hsource⟩ := material_inj ha hb (hdigest (Text.toHex_inj h))
  have hanalysis := AnalysisKind.ofName_eq hname
  have hsolver := SolverKind.ofName_eq hlabel
  rw [request, request, hanalysis, hsolver, hsource]

end Ask

end MicroFlow
