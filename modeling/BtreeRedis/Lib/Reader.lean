import Mathlib

/-!
# Readers of a stream

A reader works on a source whose internal state is richer than the sequence of
symbols it stands for: part of the sequence may be buffered and the rest still to
come. `Reads` and `Fails` speak about a reader in terms of the sequence alone. A
reader that is `Determined` does the same on every two sources that stand for the
same sequence.
-/

namespace BtreeRedis.Reader

variable {ε σ τ α β : Type} (view : σ → List τ)

/-- On every source that stands for `s` the reader returns `a` and leaves `rest`. -/
def Reads (f : StateT σ (Except ε) α) (s : List τ) (a : α) (rest : List τ) : Prop :=
  ∀ c, view c = s → ∃ c', f c = .ok (a, c') ∧ view c' = rest

def Fails (f : StateT σ (Except ε) α) (s : List τ) (e : ε) : Prop :=
  ∀ c, view c = s → f c = .error e

def Determined (f : StateT σ (Except ε) α) : Prop :=
  ∀ s, (∃ a rest, Reads view f s a rest) ∨ ∃ e, Fails view f s e

variable {view} {f : StateT σ (Except ε) α} {g : α → StateT σ (Except ε) β}
  {s t rest : List τ} {a : α} {b : β} {e : ε}

theorem bind_apply (c : σ) : (f >>= g) c = (f c >>= fun p => g p.1 p.2) := rfl

theorem map_apply {g : α → β} (c : σ) :
    (g <$> f) c = (f c >>= fun p => pure (g p.1, p.2)) := rfl

theorem reads_pure (a : α) (s : List τ) : Reads view (pure a : StateT σ (Except ε) α) s a s :=
  fun c hc => ⟨c, rfl, hc⟩

theorem fails_throw (e : ε) (s : List τ) :
    Fails view (throw e : StateT σ (Except ε) α) s e := fun _ _ => rfl

theorem Reads.bind (hf : Reads view f s a t) (hg : Reads view (g a) t b rest) :
    Reads view (f >>= g) s b rest := by
  intro c hc
  obtain ⟨c', hc', ht⟩ := hf c hc
  obtain ⟨c'', hc'', hr⟩ := hg c' ht
  exact ⟨c'', by rw [bind_apply, hc']; exact hc'', hr⟩

theorem Reads.bind_fails (hf : Reads view f s a t) (hg : Fails view (g a) t e) :
    Fails view (f >>= g) s e := by
  intro c hc
  obtain ⟨c', hc', ht⟩ := hf c hc
  rw [bind_apply, hc']
  exact hg c' ht

theorem Fails.bind (hf : Fails view f s e) : Fails view (f >>= g) s e := by
  intro c hc
  rw [bind_apply, hf c hc]
  rfl

theorem Reads.map {g : α → β} (hf : Reads view f s a rest) : Reads view (g <$> f) s (g a) rest := by
  intro c hc
  obtain ⟨c', hc', hr⟩ := hf c hc
  refine ⟨c', ?_, hr⟩
  rw [map_apply, hc']
  rfl

theorem Fails.map {g : α → β} (hf : Fails view f s e) : Fails view (g <$> f) s e := by
  intro c hc
  rw [map_apply, hf c hc]
  rfl

theorem Determined.bind (hf : Determined view f) (hg : ∀ a, Determined view (g a)) :
    Determined view (f >>= g) := by
  intro s
  rcases hf s with ⟨a, t, ha⟩ | ⟨e, he⟩
  · rcases hg a t with ⟨b, rest, hb⟩ | ⟨e, he⟩
    · exact Or.inl ⟨b, rest, ha.bind hb⟩
    · exact Or.inr ⟨e, ha.bind_fails he⟩
  · exact Or.inr ⟨e, he.bind⟩

theorem determined_pure (a : α) : Determined view (pure a : StateT σ (Except ε) α) :=
  fun s => Or.inl ⟨a, s, reads_pure a s⟩

theorem determined_throw (e : ε) : Determined view (throw e : StateT σ (Except ε) α) :=
  fun s => Or.inr ⟨e, fails_throw e s⟩

theorem Reads.unique {c : σ} {a' : α} {rest' : List τ} (hc : view c = s)
    (h : Reads view f s a rest) (h' : Reads view f s a' rest') : a = a' ∧ rest = rest' := by
  obtain ⟨c₁, h₁, hr⟩ := h c hc
  obtain ⟨c₂, h₂, hr'⟩ := h' c hc
  rw [h₁, Except.ok.injEq, Prod.mk.injEq] at h₂
  obtain ⟨rfl, rfl⟩ := h₂
  exact ⟨rfl, hr.symm.trans hr'⟩

theorem Reads.not_fails {c : σ} (hc : view c = s) (h : Reads view f s a rest) :
    ¬ Fails view f s e := by
  intro h'
  obtain ⟨c', h₁, -⟩ := h c hc
  rw [h' c hc] at h₁
  exact (nomatch h₁)

theorem Fails.unique {c : σ} {e' : ε} (hc : view c = s) (h : Fails view f s e)
    (h' : Fails view f s e') : e = e' := by
  have he := (h c hc).symm.trans (h' c hc)
  exact Except.error.inj he

theorem Determined.reads (h : Determined view f) {c c' : σ} (hf : f c = .ok (a, c')) :
    Reads view f (view c) a (view c') := by
  rcases h (view c) with ⟨b, t, hb⟩ | ⟨e, he⟩
  · obtain ⟨c'', hc'', ht⟩ := hb c rfl
    rw [hf, Except.ok.injEq, Prod.mk.injEq] at hc''
    obtain ⟨rfl, rfl⟩ := hc''
    exact ht ▸ hb
  · exact (nomatch hf.symm.trans (he c rfl))

theorem Determined.fails (h : Determined view f) {c : σ} (hf : f c = .error e) :
    Fails view f (view c) e := by
  rcases h (view c) with ⟨b, t, hb⟩ | ⟨e', he⟩
  · obtain ⟨c'', hc'', -⟩ := hb c rfl
    exact (nomatch hf.symm.trans hc'')
  · obtain rfl : e = e' := Except.error.inj (hf.symm.trans (he c rfl))
    exact he

end BtreeRedis.Reader
