import Novella.Save.State

/-!
# History

The history holds the most recent pages of text, oldest first. When there are more than its limit,
the oldest go. A page that never got any text gives way to the next one.

## Main definitions

* `Page` — a page with the snapshot taken when it began
* `History` — the pages and their limit
* `History.pushPage`, `History.appendText` — what happens while a game is read
* `History.rewindTo` — what happens when a save is loaded
-/

namespace Novella

/-- What a page is about. -/
inductive PageContent where
  /-- Text. -/
  | text
  /-- A choice. -/
  | choice
  /-- Text that was skipped. -/
  | skip
  /-- The end of a phase. -/
  | phase
deriving DecidableEq, Repr

/-- What was shown between two page breaks. -/
structure Page where
  /-- The text. -/
  text : String := ""
  /-- What the page is about. -/
  content : PageContent := .text
  /-- The snapshot taken when the page began. -/
  saveState : Option SaveState := none
deriving DecidableEq

namespace Page

/-- Whether no text was shown. -/
def isEmpty (p : Page) : Bool := p.text = ""

end Page

/-- The most recent pages. -/
structure History where
  /-- The pages, oldest first. -/
  pages : List Page := []
  /-- The largest number of pages that is kept. -/
  limit : Nat
deriving DecidableEq

namespace History

/-- The history without pages that keeps `limit` of them, but at least one. -/
def ofLimit (limit : Nat) : History := ⟨[], max limit 1⟩

instance : Inhabited History := ⟨ofLimit (Settings.historyLimit {}).toNat⟩

/-- The history without the oldest pages beyond the limit. -/
def trim (h : History) : History := { h with pages := h.pages.drop (h.pages.length - h.limit) }

theorem length_pages_trim_le (h : History) : h.trim.pages.length ≤ h.limit := by
  simp only [trim, List.length_drop]
  omega

/-- The history with another limit. -/
def setLimit (h : History) (limit : Nat) : History := trim { h with limit := max limit 1 }

/-- The pages without a last one that is empty. -/
def dropEmptyLast (pages : List Page) : List Page :=
  match pages.getLast? with
  | some p => if p.isEmpty then pages.dropLast else pages
  | none => pages

/-- Adds a page, in the place of the last one if that is empty. -/
def pushPage (h : History) (p : Page) : History :=
  trim { h with pages := dropEmptyLast h.pages ++ [p] }

/-- Begins a page. -/
def breakPage (h : History) (saveState : Option SaveState) (content : PageContent) : History :=
  h.pushPage { content, saveState }

/-- Changes the last page, if there is one. -/
def modifyLast (h : History) (f : Page → Page) : History :=
  match h.pages.getLast? with
  | some p => { h with pages := h.pages.dropLast ++ [f p] }
  | none => h

/-- Adds text to the last page, which is begun if there is none. -/
def appendText (h : History) (s : String) : History :=
  let h := if h.pages.isEmpty then { h with pages := [{}] } else h
  h.modifyLast (fun p => { p with text := p.text ++ s })

/-- Whether the page began at the position with this fingerprint. -/
def beganAt (fingerprint : String) (p : Page) : Bool :=
  match p.saveState with
  | some s => s.fingerprint = fingerprint
  | none => false

/-- The pages before the last one that passes the test; none if no page does. -/
def pagesBefore (test : Page → Bool) : List Page → List Page
  | [] => []
  | p :: ps => if ps.any test then p :: pagesBefore test ps else []

/-- Goes back to the page that began at a save state: that page and all later ones are dropped, and
all pages if there is no such page. -/
def rewindTo (h : History) (s : SaveState) : History :=
  { h with pages := pagesBefore (beganAt s.fingerprint) h.pages }

/-- The history without pages. -/
def clear (h : History) : History := { h with pages := [] }

/-- The last page. -/
def last? (h : History) : Option Page := h.pages.getLast?

end History

end Novella
