import StockServer.Calls
import StockServer.CrashSafety

set_option relaxedAutoImplicit false
set_option autoImplicit false

/-!
# The manifest is the only authority

Recovery follows the manifest: two directories that agree on the manifest and on the two files of
the generation it names are recovered alike, whatever else is in them, and none of the files is
modified.  Without a manifest and without the bootstrap marker, leftovers are not interpreted:
recovery reports an error and touches nothing.

## Main definitions

* `SameGeneration` — two directories with the same manifest and the same files of its generation.
* `Leftover` — the directory holds a manifest temp file or the file of a generation.

## Main results

* `ensures_recover_contents` — recovery from a manifest leaves all files but the marker as they are,
  at every point.
* `ensures_recover_leftover` — leftovers without a manifest and without the marker are an error.
* `recover_authoritative` — **recovery follows the manifest only**.
-/

namespace StockServer

open Prog

variable {ok : Choice → Prop} {d : Disk} {store : StockStore} {gen : StockGen}

/-- Both directories have the same valid manifest, of the generation `gen`, and the same snapshot
and log of that generation. -/
structure SameGeneration (gen : StockGen) (d₁ d₂ : Disk) : Prop where
  manifest : manifestOf d₁ = (.ok, gen)
  same : ∀ name ∈ [stockManifestName, generationName stockSnapshotName gen,
    generationName stockAofName gen], d₂.contents name = d₁.contents name

/-- The directory has an entry for a manifest temp file or for a file of a generation. -/
def Leftover (d : Disk) : Prop := ∃ name, blocksBootstrap name = true ∧ (d.lookup name).isSome

/-! ## What recovery leaves alone -/

/-- All files but the marker are visible as they were. -/
def KeepsFiles (d d' : Disk) : Prop :=
  ∀ name, name ≠ stockBootstrapMarkerName → d'.contents name = d.contents name

/-- A quiet call changes no file that a process sees. -/
theorem contents_perform_of_quiet {o : Op} (ho : Quiet o) (d : Disk) (c : Choice) (name : Name) :
    (perform d o c).2.contents name = d.contents name := by
  cases o with
  | stat | readLines | openDir | closeDir => rfl
  | openRead n =>
    simp only [perform]
    split_ifs
    · rfl
    · split <;> rfl
  | fsyncDir => simp only [perform]; split_ifs <;> rfl
  | listDir => simp only [perform]; split_ifs <;> rfl
  | openWrite | print | flush | fsync | close | unlink | rename => exact ho.elim

/-- Unlinking the marker changes no other file. -/
theorem KeepsFiles.unlink (d : Disk) (c : Choice) :
    KeepsFiles d (perform d (.unlink stockBootstrapMarkerName) c).2 := by
  intro name hname
  simp only [perform]
  split_ifs
  · rfl
  · exact Disk.contents_change (Ne.symm hname)
  · rfl

/-- **Recovery from a manifest leaves all files but the marker as they are**, after every call and
whatever fails. -/
theorem ensures_recover_contents (hmanifest : manifestOf d = (.ok, gen)) :
    Ensures ok (KeepsFiles d) (fun _ d' => KeepsFiles d d') (recoverStockStore store) d := by
  have hstart : KeepsFiles d d := fun _ _ => rfl
  refine ensures_readManifest_bind hstart ?_ fun status _ hok hfound => ?_
  · rw [hmanifest]
    -- from here on recovery makes quiet calls and unlinks the marker
    have hcalls : Calls (fun o => Quiet o ∨ o = .unlink stockBootstrapMarkerName)
        (removeStaleMarker >>= fun _ => loadGeneration store gen) :=
      calls_recoverGeneration (fun _ => Or.inl) (Or.inr rfl)
    refine hcalls.ensures (fun d o c ho hd name hname => ?_) hstart
    rcases ho with ho | rfl
    · exact (contents_perform_of_quiet ho d c name).trans (hd name hname)
    · exact (KeepsFiles.unlink d c name hname).trans (hd name hname)
  · simp only [hfound, ↓reduceIte, hok, ne_eq, not_false_eq_true]
    exact ⟨hstart, hstart⟩

/-- The image of a generation depends on its two files. -/
theorem SameGeneration.image {d₁ d₂ : Disk} (h : SameGeneration gen d₁ d₂) (store : StockStore) :
    generationImage store d₂ gen = generationImage store d₁ gen := by
  have hsnapshot := h.same (generationName stockSnapshotName gen) (by simp)
  have haof := h.same (generationName stockAofName gen) (by simp)
  simp only [generationImage, imageOf_congr hsnapshot, imageOf_congr haof]

/-- The same manifest names the same generation. -/
theorem SameGeneration.symm {d₁ d₂ : Disk} (h : SameGeneration gen d₁ d₂) :
    SameGeneration gen d₂ d₁ where
  manifest := by
    have hmanifest := h.manifest
    rwa [manifestOf, ← h.same stockManifestName (by simp), ← manifestOf] at hmanifest
  same name hname := (h.same name hname).symm

/-! ## Leftovers -/

/-- **Leftovers without a manifest and without the marker are an error**: the directory and the
store stay as they are, whatever fails, and the error is `STOCK_ERR_INVALID` unless a call has
failed. -/
theorem ensures_recover_leftover (hmanifest : d.lookup stockManifestName = none)
    (hmarker : d.lookup stockBootstrapMarkerName = none) (hleft : Leftover d) :
    Ensures ok (· = d) (fun r d' => d' = d ∧ ∃ status, r = .returned (status, store) ∧
      status ≠ .ok ∧ (status = .errInvalid ∨ ∃ c, ok c ∧ ¬ c.Fine))
      (recoverStockStore store) d := by
  refine ensures_readManifest_bind rfl ?_ fun status hfault hok hfound => ?_
  swap
  · simp only [hfound, ↓reduceIte, hok, ne_eq, not_false_eq_true]
    exact ⟨rfl, rfl, status, rfl, hok, Or.inr hfault⟩
  rw [manifestOf_of_lookup hmanifest]
  dsimp only
  rw [if_pos rfl, prepareBootstrap, fileExists, bind_assoc, ensures_op_bind]
  refine ⟨rfl, fun c _ => ?_⟩
  simp only [perform, hmarker, Option.isSome_none, Bool.and_false, Bool.false_eq_true, ↓reduceIte]
  refine (@ensures_ensureBootstrapRecoveryState ok (· = d) d rfl).bind (fun guarded d' _ h => ?_)
    fun code d' _ h => by simp at h
  obtain ⟨rfl, h⟩ := h
  rcases h with ⟨-, hclean⟩ | ⟨hr, -⟩ | ⟨hr, hfault⟩
  · obtain ⟨name, hname, hsome⟩ := hleft
    rw [hclean name hsome] at hname
    cases hname
  · obtain rfl := Outcome.returned.inj hr
    exact ⟨rfl, rfl, .errInvalid, rfl, by decide, Or.inl rfl⟩
  · obtain rfl := Outcome.returned.inj hr
    exact ⟨rfl, rfl, .errIo, rfl, by decide, Or.inr hfault⟩

/-! ## Two runs -/

/-- **Recovery follows the manifest only.**  For every two directories with the same valid manifest
and the same snapshot and log of its generation, whatever else is in them: recovery of the one and
of the other returns the same status and the same store if no call fails, and whatever fails two
recoveries that return `STOCK_OK` return the same store; all files but the bootstrap marker stay
unmodified, after every call.  And for every directory with leftovers, without a manifest and
without the marker: recovery returns an error, and neither the directory nor the store is touched.

**Proof sketch.** What recovery returns is the image of the generation, which depends on its two
files; before it returns, it makes no call that could change a file, but for the unlink of the
marker. -/
theorem recover_authoritative (store : StockStore) :
    (∀ (gen : StockGen) (d₁ d₂ : Disk) (σ₁ σ₂ : ℕ → Choice), SameGeneration gen d₁ d₂ →
      ((∀ n, (σ₁ n).Fine) → (∀ n, (σ₂ n).Fine) →
        ((recoverStockStore store).run d₁ σ₁).1 = ((recoverStockStore store).run d₂ σ₂).1) ∧
      (∀ s₁ s₂, ((recoverStockStore store).run d₁ σ₁).1 = .returned (.ok, s₁) →
        ((recoverStockStore store).run d₂ σ₂).1 = .returned (.ok, s₂) → s₁ = s₂) ∧
      KeepsFiles d₁ ((recoverStockStore store).run d₁ σ₁).2 ∧
      ∀ n, KeepsFiles d₁ ((recoverStockStore store).after n d₁ σ₁)) ∧
    ∀ (d : Disk) (σ : ℕ → Choice), d.lookup stockManifestName = none →
      d.lookup stockBootstrapMarkerName = none → Leftover d →
        ∃ status, status ≠ .ok ∧ (recoverStockStore store).run d σ = (.returned (status, store), d)
    := by
  have hreturns : ∀ (gen : StockGen) (d : Disk) (σ : ℕ → Choice), manifestOf d = (.ok, gen) →
      ((recoverStockStore store).run d σ).1 = .returned (generationImage store d gen) ∨
        ∀ s, ((recoverStockStore store).run d σ).1 ≠ .returned (.ok, s) :=
    fun gen d σ hmanifest => ((@ensures_recover_of_manifest (fun _ => True) d store gen
      hmanifest).run fun _ => trivial).2.imp_right And.right
  constructor
  · intro gen d₁ d₂ σ₁ σ₂ h
    refine ⟨fun hσ₁ hσ₂ => ?_, fun s₁ s₂ h₁ h₂ => ?_, ?_, fun n => ?_⟩
    · rw [run_recover_fine h.manifest hσ₁, run_recover_fine h.symm.manifest hσ₂, h.image]
    · rcases hreturns gen d₁ σ₁ h.manifest with hr₁ | hr₁
      swap
      · exact absurd h₁ (hr₁ s₁)
      rcases hreturns gen d₂ σ₂ h.symm.manifest with hr₂ | hr₂
      swap
      · exact absurd h₂ (hr₂ s₂)
      rw [hr₁] at h₁
      rw [hr₂, h.image] at h₂
      exact congrArg Prod.snd (Outcome.returned.inj (h₁.symm.trans h₂))
    · exact (@ensures_recover_contents (fun _ => True) d₁ store gen h.manifest).run fun _ => trivial
    · exact (@ensures_recover_contents (fun _ => True) d₁ store gen h.manifest).after
        (fun _ => trivial) n
  · intro d σ hmanifest hmarker hleft
    obtain ⟨hdisk, status, hr, hne, -⟩ :=
      (@ensures_recover_leftover (fun _ => True) d store hmanifest hmarker hleft).run
        (σ := σ) fun _ => trivial
    exact ⟨status, hne, Prod.ext hr hdisk⟩

/-- The first generation, with a marker and a torn second one beside it. -/
def litteredDirectory : Disk :=
  ((firstDirectory.add stockBootstrapMarkerName []).add stockManifestTmpName (ascii "gen")).add
    (generationName stockSnapshotName 2) (ascii "1 5")

/-- The litter changes neither the result of a recovery nor the files that count; and without a
manifest the guard leaves a directory with a leftover as it is. -/
theorem recover_authoritative_littered :
    ((recoverStockStore .nil).run firstDirectory fun _ => .fine).1 =
        ((recoverStockStore .nil).run litteredDirectory fun _ => .fine).1 ∧
      KeepsFiles litteredDirectory
        ((recoverStockStore .nil).run litteredDirectory fun _ => .fine).2 ∧
      ∃ status, status ≠ .ok ∧
        (recoverStockStore .nil).run (Disk.empty.add stockManifestTmpName []) (fun _ => .fine) =
          (.returned (status, .nil), Disk.empty.add stockManifestTmpName []) := by
  have hsame : SameGeneration 1 litteredDirectory firstDirectory :=
    ⟨by decide +kernel, by decide +kernel⟩
  obtain ⟨hmanifest, hleft⟩ := recover_authoritative .nil
  obtain ⟨hresult, -, hkeeps, -⟩ := hmanifest 1 litteredDirectory firstDirectory
    (fun _ => .fine) (fun _ => .fine) hsame
  refine ⟨(hresult (fun _ => rfl) fun _ => rfl).symm, hkeeps, ?_⟩
  exact hleft _ _ (by decide +kernel) (by decide +kernel)
    ⟨stockManifestTmpName, by decide, by decide +kernel⟩

end StockServer
