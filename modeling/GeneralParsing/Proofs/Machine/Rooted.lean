import GeneralParsing.Proofs.Machine.Tickets

/-!
# Everything is derived for the start

The machine derives nothing that nobody asked for. Every memo but the first was opened for a
continuation that makes results of an older memo, so the way from memo to memo ends at the start
expression. And a position is reached only by results that end there. `Rooted` states both; steps
keep it (`Rooted.outcome`), and so does moving on where a terminal has matched (`Rooted.advance`).
-/

namespace GeneralParsing

namespace Machine

/-- Memos are opened **for older ones**, and a position is reached by results that end there. -/
structure Rooted (g : Grammar) (L : Ledger) (position : Nat) : Prop where
  asked : ∀ (id : MemoId) goal, L.goals[id]? = some goal →
    ∃ next, Awaits g L next goal ∧ ∀ memo, next.memo? = some memo → memo < id
  reached : position = 0 ∨ ∃ node goal, L.Result node goal position

variable {g : Grammar} {w : List String} {L L' : Ledger} {m m' : Machine} {position : Nat}

namespace Rooted

theorem addResult (h : Rooted g L position) (memo : MemoId) (stop : Nat) :
    Rooted g (L.addResult memo stop) position where
  asked id goal hgoal := by
    obtain ⟨next, ha, hold⟩ := h.asked id goal hgoal
    exact ⟨next, ha.mono (L.grows_addResult memo stop), hold⟩
  reached := h.reached.imp_right fun ⟨node, goal, hn⟩ =>
    ⟨node, goal, hn.mono (L.grows_addResult memo stop)⟩

/-- A memo may be opened **for a continuation** that has its own memo. The expression is one that
the continuation awaits, so it is reached from the start as its own memo is. -/
theorem addGoal (h : Rooted g L position) {next : Continuation} {goal : Goal}
    (ha : Awaits g (L.addGoal goal) next goal)
    (hold : ∀ memo, next.memo? = some memo → memo < L.goals.size) :
    Rooted g (L.addGoal goal) position where
  asked id goal' hgoal := by
    change (L.goals.push goal)[id]? = some goal' at hgoal
    rw [Array.getElem?_push] at hgoal
    split at hgoal
    · next heq =>
      obtain rfl := Option.some.inj hgoal
      exact ⟨next, ha, fun memo hmemo => heq ▸ hold memo hmemo⟩
    · obtain ⟨next', ha', hold'⟩ := h.asked id goal' hgoal
      exact ⟨next', ha'.mono (L.grows_addGoal goal), hold'⟩
  reached := h.reached.imp_right fun ⟨node, goal', hn⟩ =>
    ⟨node, goal', hn.mono (L.grows_addGoal goal)⟩

/-- An inner memo is opened **for the outer one**. It stands for the same expression, one iteration
in. -/
theorem addInner (h : Rooted g L position) {memo : MemoId} {id : ExprId} {e : Expr} {start : Nat}
    (hgoal : L.goals[memo]? = some ⟨id, false, start⟩) (he : g.expr? id = some e)
    (hinner : e.hasInner = true) : Rooted g (L.addGoal ⟨id, true, start⟩) position :=
  h.addGoal (.inner ((L.grows_addGoal _).goal hgoal) he hinner) fun memo' hmemo => by
    obtain rfl : memo = memo' := Option.some.inj hmemo
    exact (Array.getElem?_eq_some_iff.mp hgoal).1

theorem expansion (h : Rooted g L position) {memo : MemoId} {id : ExprId} {e : Expr} {start : Nat}
    (hgoal : L.goals[memo]? = some ⟨id, false, start⟩) (he : g.expr? id = some e)
    (hexp : Expansion L m memo e L' m') : Rooted g L' position := by
  cases hexp with
  | empty | matched => exact h.addResult _ _
  | sequence hgoal' | repetition hgoal' =>
    obtain rfl := Option.some.inj (hgoal.symm.trans hgoal')
    exact h.addInner hgoal he rfl
  | repetitionEmpty hgoal' =>
    obtain rfl := Option.some.inj (hgoal.symm.trans hgoal')
    exact (h.addInner hgoal he rfl).addResult _ _
  | choice | omitted | lexical | unmatched => exact h

/-- **Steps keep it.** Memos are the only things that could break it, and they are opened for
continuations that are served. -/
theorem outcome (h : Rooted g L m.position) (hs : Sound g w L m) {task : Task}
    (ht : SoundTask g L m.position task) (ho : Outcome g L m task L' m') :
    Rooted g L' m.position := by
  cases ho with
  | @opened next id e _ _ htable he hexp =>
    cases ht with
    | derive ha =>
      have hgoal := hs.goals_addGoal ⟨id, false, m.position⟩
      exact (h.addGoal (ha.mono (L.grows_addGoal _)) fun memo => ha.memo_lt).expansion hgoal he hexp
  | sequenceDone | choiceFirst | repetitionLate | omitted | lexical => exact h.addResult _ _
  | _ => exact h

/-- **Moving on** where a terminal has matched. Memos of the old position are rooted still; at the
new one there are none yet. -/
theorem advance (h : Rooted g L m.position) (hs : Sound g w L m) (hmatched : m.matched ≠ []) :
    Rooted g L (m.position + 1) where
  asked := h.asked
  reached := by
    obtain ⟨⟨node, memo⟩, hmem⟩ := List.exists_mem_of_ne_nil _ hmatched
    obtain ⟨hresult, expr, start, -, hgoal, -⟩ := hs.matched node memo hmem
    exact .inr ⟨node, _, memo, hresult, hgoal⟩

end Rooted

end Machine

end GeneralParsing
