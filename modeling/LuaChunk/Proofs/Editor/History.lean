import LuaChunk.Editor.Feature
import LuaChunk.Proofs.Compile.Chunk
import LuaChunk.Proofs.Compile.Sharing
import Mathlib.Data.List.Induction

/-!
What the editor has told of a document says all that is shown of it: the text that came last, and
the function of the last text that compiled, both since the document was closed. Documents do not
show in each other, although all are compiled with one table of names.
-/

set_option autoImplicit false

namespace LuaChunk.Editor

open LuaChunk

/-- The whole text that an edit gives. -/
def Workspace.Change.text? : Workspace.Change → Option Bytes
  | .whole text => some text
  | .part => none

namespace Notification

/-- The text that a notification gives its document. Of several edits only the last one counts. -/
def text? : Notification → Option Bytes
  | .opened _ text => some text
  | .changed _ edits => edits.getLast?.bind Workspace.Change.text?
  | .closed _ => none

def textFor? (uri : Bytes) (n : Notification) : Option Bytes :=
  if n.uri = uri then n.text? else none

def closes (uri : Bytes) (n : Notification) : Bool := n = .closed uri

variable {uri : Bytes} {n : Notification}

theorem closes_of_ne (h : n.uri ≠ uri) : n.closes uri = false := by
  refine decide_eq_false ?_
  rintro rfl
  exact h rfl

theorem textFor?_of_ne (h : n.uri ≠ uri) : n.textFor? uri = none := if_neg h

end Notification

/-- The texts that a document has received since it was closed, the latest first. -/
def received (uri : Bytes) (history : List Notification) : List Bytes :=
  (history.reverse.takeWhile fun n => !n.closes uri).filterMap (·.textFor? uri)

/-- The function of the latest text that compiles, among texts of which the latest is first. -/
def latestFunction (uri : Bytes) (texts : List Bytes) : Option Prototype :=
  texts.findSome? fun text => (compile (chunkName uri) text).toOption

variable {uri : Bytes} {n : Notification} {history : List Notification}

theorem received_append (h : n.closes uri = false) :
    received uri (history ++ [n]) = (n.textFor? uri).toList ++ received uri history := by
  unfold received
  rw [List.reverse_append, List.reverse_singleton, List.singleton_append, List.takeWhile_cons, h]
  cases ht : n.textFor? uri <;> simp [ht]

theorem received_append_closes (h : n.closes uri = true) : received uri (history ++ [n]) = [] := by
  unfold received
  rw [List.reverse_append, List.reverse_singleton, List.singleton_append, List.takeWhile_cons, h]
  rfl

namespace Compiler

variable {c : Compiler} {text : Bytes}

theorem update_eq (h : c.interner.Usable) (uri text : Bytes) :
    (c.update uri text).2 = match compile (chunkName uri) text with
      | .ok p => { text, function := some p }
      | .error (.error e) => { text, function := c.function? uri, error := some e }
      | .error _ => { text, function := c.function? uri } := by
  rw [← Compile.result_run h]
  rfl

theorem usable_update (h : c.interner.Usable) : (c.update uri text).1.interner.Usable :=
  Compile.usable_run (o := { chunk := chunkName uri }) h

theorem function_update_self (h : c.interner.Usable) :
    (c.update uri text).1.function? uri = (compile (chunkName uri) text).toOption.or
      (c.function? uri) := by
  have hfound : (c.update uri text).1.function? uri = (c.update uri text).2.function := by
    unfold function? document?
    exact congrArg (·.bind Compiled.function) (Assoc.lookup_insert_self uri _ c.documents)
  rw [hfound, update_eq h]
  split <;> simp_all [Except.toOption]

theorem function_update_of_ne {other : Bytes} (h : other ≠ uri) :
    (c.update uri text).1.function? other = c.function? other :=
  congrArg (·.bind Compiled.function) (Assoc.lookup_insert_of_ne h _ c.documents)

theorem function_close_self : (c.close uri).function? uri = none :=
  congrArg (·.bind Compiled.function) (Assoc.lookup_erase_self uri c.documents)

theorem function_close_of_ne {other : Bytes} (h : other ≠ uri) :
    (c.close uri).function? other = c.function? other :=
  congrArg (·.bind Compiled.function) (Assoc.lookup_erase_of_ne h c.documents)

end Compiler

namespace Workspace

variable {w : Workspace} {text : Bytes}

theorem notify_cases (w : Workspace) (n : Notification) :
    (n.closes n.uri = true ∧ w.notify n = (w.close n.uri, some [])) ∨
      (n.closes n.uri = false ∧ (∃ text, n.text? = some text ∧
        w.notify n = ((w.setText n.uri text).1, some (w.setText n.uri text).2))) ∨
      (n.closes n.uri = false ∧ n.text? = none ∧ w.notify n = (w, none)) := by
  cases n with
  | opened uri text => exact .inr (.inl ⟨rfl, text, rfl, rfl⟩)
  | closed uri => exact .inl ⟨decide_eq_true rfl, rfl⟩
  | changed uri edits =>
    cases hlast : edits.getLast? with
    | none =>
      exact .inr (.inr ⟨rfl, by rw [Notification.text?, hlast]; rfl, by rw [notify, change, hlast]⟩)
    | some e =>
      cases e with
      | whole text =>
        exact .inr
          (.inl
          ⟨rfl, text, by rw [Notification.text?, hlast]; rfl, by rw [notify, change, hlast]; rfl⟩)
      | part =>
        exact .inr
          (.inr ⟨rfl, by rw [Notification.text?, hlast]; rfl, by rw [notify, change, hlast]⟩)

theorem notify_of_ne (h : n.uri ≠ uri) : (w.notify n).1.texts.lookup uri = w.texts.lookup uri ∧
    (w.notify n).1.compiler.function? uri = w.compiler.function? uri := by
  obtain ⟨-, hn⟩ | ⟨-, text, -, hn⟩ | ⟨-, -, hn⟩ := notify_cases w n <;> rw [hn]
  · exact ⟨Assoc.lookup_erase_of_ne h.symm w.texts, Compiler.function_close_of_ne h.symm⟩
  · exact ⟨Assoc.lookup_insert_of_ne h.symm text w.texts, Compiler.function_update_of_ne h.symm⟩
  · exact ⟨rfl, rfl⟩

/-- What is kept of every document is what has been told of it. -/
structure Agrees (w : Workspace) (history : List Notification) : Prop where
  usable : w.compiler.interner.Usable
  text : ∀ uri, w.texts.lookup uri = (received uri history).head?
  function : ∀ uri, w.compiler.function? uri = latestFunction uri (received uri history)

theorem Agrees.empty : Agrees {} [] where
  usable := Interner.usable_ofEvents []
  text _ := rfl
  function _ := rfl

theorem Agrees.notify (h : w.Agrees history) (n : Notification) :
    (w.notify n).1.Agrees (history ++ [n]) where
  usable := by
    obtain ⟨-, hn⟩ | ⟨-, text, -, hn⟩ | ⟨-, -, hn⟩ := notify_cases w n <;> rw [hn]
    · exact h.usable
    · exact Compiler.usable_update h.usable
    · exact h.usable
  text uri := by
    by_cases hu : n.uri = uri
    · subst hu
      obtain ⟨hc, hn⟩ | ⟨hc, text, ht, hn⟩ | ⟨hc, ht, hn⟩ := notify_cases w n <;> rw [hn]
      · rw [received_append_closes hc]
        exact Assoc.lookup_erase_self n.uri w.texts
      · rw [received_append hc, Notification.textFor?, if_pos rfl, ht]
        exact Assoc.lookup_insert_self n.uri text w.texts
      · rw [received_append hc, Notification.textFor?, if_pos rfl, ht]
        exact h.text n.uri
    · rw [(notify_of_ne hu).1, received_append (Notification.closes_of_ne hu),
        Notification.textFor?_of_ne hu]
      exact h.text uri
  function uri := by
    by_cases hu : n.uri = uri
    · subst hu
      obtain ⟨hc, hn⟩ | ⟨hc, text, ht, hn⟩ | ⟨hc, ht, hn⟩ := notify_cases w n <;> rw [hn]
      · rw [received_append_closes hc]
        exact Compiler.function_close_self
      · rw [received_append hc, Notification.textFor?, if_pos rfl, ht]
        refine (Compiler.function_update_self h.usable).trans ?_
        rw [h.function n.uri]
        unfold latestFunction
        rw [Option.toList_some, List.singleton_append, List.findSome?_cons]
        cases (compile (chunkName n.uri) text).toOption <;> rfl
      · rw [received_append hc, Notification.textFor?, if_pos rfl, ht]
        exact h.function n.uri
    · rw [(notify_of_ne hu).2, received_append (Notification.closes_of_ne hu),
        Notification.textFor?_of_ne hu]
      exact h.function uri

theorem setText_diagnostics (h : w.compiler.interner.Usable) (uri text : Bytes) :
    (∃ p, compile (chunkName uri) text = .ok p ∧ (w.setText uri text).2 = []) ∨
      ∃ e, compile (chunkName uri) text = .error (.error e) ∧
        (w.setText uri text).2 = [Diagnostic.ofError e text] := by
  have hd : (w.setText uri text).2 =
      ((w.compiler.update uri text).2.error.map (Diagnostic.ofError · text)).toList := rfl
  cases hr : compile (chunkName uri) text with
  | ok p => exact .inl ⟨p, rfl, by rw [hd, Compiler.update_eq h, hr]; rfl⟩
  | error f =>
    obtain ⟨e, rfl⟩ := error_of_compile hr
    exact .inr ⟨e, rfl, by rw [hd, Compiler.update_eq h, hr]; rfl⟩

/-- The state after a history. -/
def after (history : List Notification) : Workspace := history.foldl (fun w n => (w.notify n).1) {}

theorem after_append (history : List Notification) (n : Notification) :
    after (history ++ [n]) = ((after history).notify n).1 := List.foldl_append

theorem agrees_after (history : List Notification) : (after history).Agrees history := by
  induction history using List.reverseRecOn with
  | nil => exact .empty
  | append_singleton history n ih =>
    rw [after_append]
    exact ih.notify n

theorem document_after (history : List Notification) (uri : Bytes) : (after history).document? uri =
    (received uri history).head?.map fun text =>
      ⟨text, latestFunction uri (received uri history)⟩ := by
  rw [document?, (agrees_after history).text, (agrees_after history).function]

theorem document_after_of_ne (h : n.uri ≠ uri) :
    (after (history ++ [n])).document? uri = (after history).document? uri := by
  rw [after_append, document?, document?, (notify_of_ne h).1, (notify_of_ne h).2]

/-- After any notifications, there are no answers for a document that has received no text since it
was closed; any other is answered for with its latest text and with the function of the latest text
that compiles. The next notification publishes nothing if it is not taken, no diagnostics if it
closes its document or gives a text that compiles, and otherwise the error of the text; and it does
not change the answers for other documents. -/
theorem answers_follow_history (history : List Notification) :
    (∀ uri line character, match received uri history with
      | [] =>
        (after history).hover uri line = none ∧ (after history).complete uri line character = none ∧
          (after history).outline uri = none
      | text :: earlier =>
          (after history).hover uri line = (latestFunction uri (text :: earlier)).bind
            (Editor.hover · line) ∧
            (after history).complete uri line character =
              Editor.complete ⟨text, latestFunction uri (text :: earlier)⟩ line character ∧
            (after history).outline uri = (latestFunction uri (text :: earlier)).map
              (Editor.outline text)) ∧
    ∀ n : Notification,
      (n.text? = none → ((after history).notify n).2 = if n.closes n.uri then some [] else none) ∧
      (∀ text, n.text? = some text →
        (∃ p, compile (chunkName n.uri) text = .ok p ∧ ((after history).notify n).2 = some []) ∨
          ∃ e, compile (chunkName n.uri) text = .error (.error e) ∧
            ((after history).notify n).2 = some [Diagnostic.ofError e text]) ∧
      ∀ uri, n.uri ≠ uri → ∀ line character,
        (after (history ++ [n])).hover uri line = (after history).hover uri line ∧
          (after (history ++ [n])).complete uri line character = (after history).complete uri line
            character ∧
          (after (history ++ [n])).outline uri = (after history).outline uri := by
  refine ⟨fun uri line character => ?_,
    fun n => ⟨fun hnone => ?_, fun text htext => ?_, fun uri hne line character => ?_⟩⟩
  · have hdocument := document_after history uri
    unfold hover complete outline
    rw [hdocument]
    cases received uri history with
    | nil => exact ⟨rfl, rfl, rfl⟩
    | cons text earlier => exact ⟨rfl, rfl, by cases latestFunction uri (text :: earlier) <;> rfl⟩
  · obtain ⟨hc, hn⟩ | ⟨-, text, ht, -⟩ | ⟨hc, -, hn⟩ := notify_cases (after history) n
    · rw [hn, hc]; rfl
    · rw [hnone] at ht; cases ht
    · rw [hn, hc]; rfl
  · obtain ⟨hc, -⟩ | ⟨-, text', ht, hn⟩ | ⟨-, hnone, -⟩ := notify_cases (after history) n
    · obtain ⟨uri, rfl⟩ : ∃ uri, n = .closed uri := ⟨n.uri, of_decide_eq_true hc⟩
      cases htext
    · obtain rfl : text' = text := Option.some.inj (ht.symm.trans htext)
      rw [hn]
      obtain ⟨p, hp, hd⟩ | ⟨e, he, hd⟩ :=
        setText_diagnostics (agrees_after history).usable n.uri text'
      · exact .inl ⟨p, hp, congrArg some hd⟩
      · exact .inr ⟨e, he, congrArg some hd⟩
    · rw [hnone] at htext; cases htext
  · unfold hover complete outline
    rw [document_after_of_ne hne]
    exact ⟨rfl, rfl, rfl⟩

def sampleHistory : List Notification :=
  [.opened (utf8 "a") (utf8 "({})()"), .opened (utf8 "b") (utf8 "("),
    .changed (utf8 "a") [.part, .whole (utf8 "(")],
    .changed (utf8 "a") [.whole (utf8 "({})()"), .part]]

/-- A document that is broken by an edit keeps the function that it had, and another one that never
compiled has none. -/
theorem answers_follow_history_sample :
    ((after sampleHistory).outline (utf8 "a")).isSome ∧
      (after sampleHistory).outline (utf8 "b") = none ∧
      (after sampleHistory).complete (utf8 "c") 0 1 = none ∧
      (∃ d, ((after sampleHistory).notify (.opened (utf8 "b") (utf8 "("))).2 = some [d]) ∧
      (after (sampleHistory ++ [.closed (utf8 "b")])).outline (utf8 "a") =
        (after sampleHistory).outline (utf8 "a") := by
  obtain ⟨hanswers, hnext⟩ := answers_follow_history sampleHistory
  have hgood : (compile (chunkName (utf8 "a")) (utf8 "({})()")).toOption.isSome := by decide +kernel
  have hbad : (compile (chunkName (utf8 "a")) (utf8 "(")).toOption = none := by decide +kernel
  have hb : (compile (chunkName (utf8 "b")) (utf8 "(")).toOption = none := by decide +kernel
  have ha : (after sampleHistory).outline (utf8 "a") =
      (latestFunction (utf8 "a") [utf8 "(", utf8 "({})()"]).map (Editor.outline (utf8 "(")) :=
        (hanswers (utf8 "a") 0 0).2.2
  refine ⟨?_, ?_, (hanswers (utf8 "c") 0 1).2.1, ?_, ?_⟩
  · rw [ha]
    simp [latestFunction, hbad, hgood]
  · rw [show (after sampleHistory).outline (utf8 "b") =
      (latestFunction (utf8 "b") [utf8 "("]).map (Editor.outline (utf8 "("))
        from (hanswers (utf8 "b") 0 0).2.2]
    simp [latestFunction, hb]
  · obtain ⟨p, hp, -⟩ | ⟨e, -, hd⟩ := (hnext (.opened (utf8 "b") (utf8 "("))).2.1 _ rfl
    · rw [show (Notification.opened (utf8 "b") (utf8 "(")).uri = utf8 "b" from rfl] at hp
      rw [hp] at hb
      cases hb
    · exact ⟨_, hd⟩
  · exact ((hnext (.closed (utf8 "b"))).2.2 (utf8 "a") (by decide) 0 0).2.2

end Workspace

end LuaChunk.Editor
