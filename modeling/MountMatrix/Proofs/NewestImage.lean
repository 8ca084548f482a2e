import Mathlib
import MountMatrix.Cloud.Client

/-! # The newest image of a listing

A listing comes in pages, and the lookup keeps the best image of the pages so far. What it ends with
is the first of the newest images of the whole listing, however that was cut into pages.

* `PushTime.rank`: moments that may be unknown, in one linear order.
* `newest_eq_some_iff`, `newest_append`: the best image, all at once and piece by piece.
* `Cloud.answerAt`: how the requests for pages will be answered.
* `newestFrom_of_pages`: the walk through the pages.
* `findImage_untagged`: requests and answer of a lookup without a tag.
-/

set_option autoImplicit false

namespace MountMatrix

/-! ## The order of push times -/

namespace PushTime

/-- Seconds come first, then nanoseconds; an unknown moment is below all others. -/
def rank : Option PushTime → WithBot (ℤ ×ₗ ℕ)
  | none => ⊥
  | some t => (toLex (t.seconds, t.nanoseconds) : ℤ ×ₗ ℕ)

theorem later_iff (a b : Option PushTime) : later a b = true ↔ rank b < rank a := by
  cases a with
  | none => simp [later, rank]
  | some a =>
    cases b with
    | none => simp [later, rank, WithBot.bot_lt_coe]
    | some b =>
      rw [later, after, rank, rank, WithBot.coe_lt_coe, Prod.Lex.toLex_lt_toLex]
      have hsame : a.seconds = b.seconds ↔ b.seconds = a.seconds := eq_comm
      simp [hsame]

end PushTime

namespace ImageDetail

def rank (image : ImageDetail) : WithBot (ℤ ×ₗ ℕ) :=
  PushTime.rank image.pushedAt

theorem newest_concat (images : List ImageDetail) (image : ImageDetail) :
    newest (images ++ [image]) =
      match newest images with
      | none => some image
      | some best => if best.rank < image.rank then some image else some best := by
  cases images with
  | nil => rfl
  | cons first rest =>
    simp only [List.cons_append, newest, List.foldl_append, List.foldl_cons, List.foldl_nil,
      PushTime.later_iff]
    exact apply_ite some _ _ _

theorem newest_eq_none_iff {images : List ImageDetail} : newest images = none ↔ images = [] := by
  cases images <;> simp [newest]

/-- Everything before the image was pushed earlier, and nothing after it was pushed later. -/
def FirstOfNewest (image : ImageDetail) (images : List ImageDetail) : Prop :=
  ∃ before after, images = before ++ image :: after ∧
    (∀ other ∈ before, other.rank < image.rank) ∧ ∀ other ∈ after, other.rank ≤ image.rank

theorem firstOfNewest_of_newest {images : List ImageDetail} {image : ImageDetail}
    (h : newest images = some image) : image.FirstOfNewest images := by
  induction images using List.reverseRecOn generalizing image with
  | nil => cases h
  | append_singleton images last ih =>
    rw [newest_concat] at h
    cases hbest : newest images with
    | none =>
      obtain rfl : last = image := by simpa [hbest] using h
      obtain rfl := newest_eq_none_iff.mp hbest
      exact ⟨[], [], rfl, by simp, by simp⟩
    | some best =>
      obtain ⟨before, after, rfl, hbefore, hafter⟩ := ih hbest
      simp only [hbest] at h
      split at h
      next hlater =>
        obtain rfl : last = image := Option.some.inj h
        -- the old best is below the new one, and everything else is not above the old best
        refine ⟨before ++ best :: after, [], rfl, fun other hother => ?_, by simp⟩
        rcases List.mem_append.mp hother with hother | hother
        · exact (hbefore other hother).trans hlater
        · rcases List.mem_cons.mp hother with rfl | hother
          · exact hlater
          · exact (hafter other hother).trans_lt hlater
      next hearlier =>
        obtain rfl : best = image := Option.some.inj h
        refine ⟨before, after ++ [last], by simp, hbefore, fun other hother => ?_⟩
        rcases List.mem_append.mp hother with hother | hother
        · exact hafter other hother
        · rw [List.mem_singleton.mp hother]
          exact not_lt.mp hearlier

theorem newest_eq_some_iff {images : List ImageDetail} {image : ImageDetail} :
    newest images = some image ↔ image.FirstOfNewest images := by
  refine ⟨firstOfNewest_of_newest, ?_⟩
  rintro ⟨before, after, rfl, hbefore, hafter⟩
  induction after using List.reverseRecOn with
  | nil =>
    rw [newest_concat]
    cases hbest : newest before with
    | none => rfl
    | some best =>
      obtain ⟨_, _, hsplit, -⟩ := firstOfNewest_of_newest hbest
      exact if_pos (hbefore best (hsplit ▸ List.mem_append_right _ List.mem_cons_self))
  | append_singleton after last ih =>
    rw [← List.cons_append, ← List.append_assoc, newest_concat,
      ih fun other hother => hafter other (List.mem_append_left _ hother)]
    exact if_neg (hafter last (List.mem_append_right _ List.mem_cons_self)).not_gt

/-- The best of what is known can stand for it when more is looked at. -/
theorem newest_append (known more : List ImageDetail) :
    newest ((newest known).toList ++ more) = newest (known ++ more) := by
  induction more using List.reverseRecOn with
  | nil =>
    rw [List.append_nil, List.append_nil]
    cases newest known <;> rfl
  | append_singleton more image ih =>
    rw [← List.append_assoc, ← List.append_assoc, newest_concat, newest_concat, ih]

end ImageDetail

/-! ## Pages -/

namespace Cloud

/-- The answer to the next request but `k`, if all are for pages and those before it succeed. -/
def answerAt (cloud : Cloud) (k : Nat) : Except ServiceError ImagePage :=
  match Fault.find? cloud.faults (cloud.requests.length + k) with
  | some error => .error error
  | none => cloud.pages[k]?.getD (.error ⟨some "PagesExhausted", "there are no more pages"⟩)

variable (region repository : String) (tag token : Option String) {cloud : Cloud}

theorem describeImages_of_ok (reachable : cloud.reachable = true) {page : ImagePage}
    (answered : cloud.answerAt 0 = .ok page) :
    cloud.describeImages region repository tag token =
      (.ok page,
        { cloud with
          requests := cloud.requests ++ [⟨region, .describeImages repository tag token⟩]
          pages := cloud.pages.tail }) := by
  rw [answerAt] at answered
  split at answered
  next => cases answered
  next hfault =>
    rw [describeImages, deliver_of_no_fault _ _ reachable hfault]
    cases hpages : cloud.pages with
    | nil => simp [hpages] at answered
    | cons first rest =>
      obtain rfl : first = .ok page := by simpa [hpages] using answered
      simp [turnPage]

theorem describeImages_of_error (reachable : cloud.reachable = true) {error : ServiceError}
    (answered : cloud.answerAt 0 = .error error) :
    ∃ after, cloud.describeImages region repository tag token = (.error error, after) ∧
      after.requests = cloud.requests ++ [⟨region, .describeImages repository tag token⟩] := by
  rw [answerAt] at answered
  split at answered
  next hfault =>
    rw [describeImages, deliver_of_fault _ _ reachable hfault, Except.error.inj answered]
    exact ⟨_, rfl, rfl⟩
  next hfault =>
    rw [describeImages, deliver_of_no_fault _ _ reachable hfault]
    cases hpages : cloud.pages with
    | nil =>
      obtain rfl : _ = error := by simpa [hpages] using answered
      exact ⟨_, rfl, rfl⟩
    | cons first rest =>
      obtain rfl : first = .error error := by simpa [hpages] using answered
      exact ⟨_, rfl, rfl⟩

theorem answerAt_succ (cloud : Cloud) (request : Request) (k : Nat) :
    answerAt { cloud with
      requests := cloud.requests ++ [request], pages := cloud.pages.tail } k =
      cloud.answerAt (k + 1) := by
  have hnumber : (cloud.requests ++ [request]).length + k = cloud.requests.length + (k + 1) := by
    rw [List.length_append, List.length_singleton]
    omega
  simp only [answerAt, hnumber, List.getElem?_tail]

/-! ## The walk through the pages -/

/-- One page of the walk, and the walk from there on. -/
theorem newestFrom_eq (best : Option ImageDetail) (cloud : Cloud) :
    newestFrom region repository best token cloud =
      match cloud.describeImages region repository none token with
      | (.error error, after) => ([], .error error, after)
      | (.ok page, after) =>
        let best := ImageDetail.newest (best.toList ++ page.images)
        match page.next with
        | none => ([], .ok best, after)
        | some token =>
          let later := newestFrom region repository best (some token) after
          (.fetchingNextPage repository :: later.1, later.2) := by
  rw [newestFrom]
  split
  next error after answered => rw [answered]
  next page after answered =>
    rewrite [answered]
    rfl

/-- A walk through pages that are followed by others, up to an answer that ends it: a failure, or
the last page. -/
theorem newestFrom_of_pages (before : List ImagePage) (answer : Except ServiceError ImagePage)
    (best : Option ImageDetail) (cloud : Cloud) (reachable : cloud.reachable = true)
    (answered : ∀ k (h : k < before.length), cloud.answerAt k = .ok before[k])
    (continued : ∀ page ∈ before, page.next.isSome)
    (ended : cloud.answerAt before.length = answer)
    (last : ∀ page, answer = .ok page → page.next = none) :
    let walk := newestFrom region repository best token cloud
    walk.2.1 = answer.map (fun page => ImageDetail.newest
      (best.toList ++ (before.flatMap ImagePage.images ++ page.images))) ∧
    walk.2.2.requests = cloud.requests ++ (token :: before.map ImagePage.next).map fun token =>
      ⟨region, .describeImages repository none token⟩ := by
  induction before generalizing best token cloud with
  | nil =>
    rw [newestFrom_eq]
    cases answer with
    | error error =>
      obtain ⟨after, hanswer, hrequests⟩ :=
        describeImages_of_error region repository none token reachable ended
      rw [hanswer]
      exact ⟨rfl, hrequests⟩
    | ok page =>
      rw [describeImages_of_ok region repository none token reachable ended]
      simp only [last page rfl]
      exact ⟨rfl, rfl⟩
  | cons page before ih =>
    obtain ⟨next, hnext⟩ := Option.isSome_iff_exists.mp (continued page List.mem_cons_self)
    let request : Request := ⟨region, .describeImages repository none token⟩
    let after : Cloud :=
      { cloud with requests := cloud.requests ++ [request], pages := cloud.pages.tail }
    have hrest := ih (some next) (ImageDetail.newest (best.toList ++ page.images)) after reachable
      (fun k hk => (answerAt_succ cloud request k).trans (answered (k + 1) (Nat.succ_lt_succ hk)))
      (fun other hother => continued other (List.mem_cons_of_mem page hother))
      ((answerAt_succ cloud request before.length).trans ended)
    have hanswer := describeImages_of_ok region repository none token reachable
      (answered 0 (Nat.zero_lt_succ _))
    rw [newestFrom_eq, hanswer]
    simp only [List.getElem_cons_zero, hnext]
    refine ⟨hrest.1.trans ?_, hrest.2.trans ?_⟩
    · simp only [ImageDetail.newest_append, List.flatMap_cons, List.append_assoc]
    · simp only [after, request, List.map_cons, hnext, List.append_assoc, List.singleton_append]

/-- A lookup without a tag asks for page after page, each with the token that came with the one
before, until a page comes without a token or a request fails. After a last page its answer is the
first of the newest images of all pages together, or nothing if there are no images; after a failure
it is that failure. -/
theorem findImage_untagged (reachable : cloud.reachable = true) (before : List ImagePage)
    (answered : ∀ k (h : k < before.length), cloud.answerAt k = .ok before[k])
    (continued : ∀ page ∈ before, page.next.isSome) :
    let outcome := cloud.findImage ⟨region, repository, none⟩
    let requests := (none :: before.map ImagePage.next).map fun token : Option String =>
      (⟨region, .describeImages repository none token⟩ : Request)
    (∀ last, cloud.answerAt before.length = .ok last → last.next = none →
      let images := before.flatMap ImagePage.images ++ last.images
      outcome.2.requests = cloud.requests ++ requests ∧
      ∃ found : Option ImageDetail,
        outcome.1.result = .ok (found.map fun image =>
          { digest := image.digest.getD ""
            tags := image.tags
            pushedAt := (image.pushedAt.bind PushTime.text?).getD "" }) ∧
        (found = none ↔ images = []) ∧
        ∀ image, found = some image ↔ image.FirstOfNewest images) ∧
    ∀ error, cloud.answerAt before.length = .error error →
      outcome.2.requests = cloud.requests ++ requests ∧ outcome.1.result = .error error := by
  intro outcome requests
  have hwalk := fun answer ended last =>
    newestFrom_of_pages region repository none before answer none cloud reachable answered
      continued ended last
  refine ⟨fun last hlast hend => ?_, fun error herror => ?_⟩
  · obtain ⟨hresult, hrequests⟩ := hwalk (.ok last) hlast (by rintro page ⟨⟩; exact hend)
    refine ⟨hrequests, _, congrArg (Except.map (Option.map ImageDetail.summary)) hresult, ?_, ?_⟩
    · exact ImageDetail.newest_eq_none_iff
    · exact fun image => ImageDetail.newest_eq_some_iff
  · obtain ⟨hresult, hrequests⟩ := hwalk (.error error) herror (by rintro page ⟨⟩)
    exact ⟨hrequests, congrArg (Except.map (Option.map ImageDetail.summary)) hresult⟩

/-- Two pages, whose newest images were pushed at the same moment: the one on the first page is
taken. If the second page is refused, that is the answer. -/
theorem findImage_untagged_of_tie :
    let older : ImageDetail := ⟨some "sha256:a", [], none⟩
    let newest : ImageDetail := ⟨some "sha256:b", ["v2"], some ⟨5, 1⟩⟩
    let tied : ImageDetail := ⟨some "sha256:c", [], some ⟨5, 1⟩⟩
    let first : ImagePage := ⟨[older, newest], some "more"⟩
    let last : Except ServiceError ImagePage := .ok ⟨[tied], none⟩
    let refusal : ServiceError := ⟨some "AccessDenied", "not allowed"⟩
    let lookup := fun second =>
      findImage ⟨"eu-west-1", "provider", none⟩ { pages := [.ok first, second] }
    let requests : List Request := [none, some "more"].map fun token =>
      ⟨"eu-west-1", .describeImages "provider" none token⟩
    ((lookup last).2.requests = requests ∧
      (lookup last).1.result = .ok (some ⟨"sha256:b", ["v2"], "1970-01-01T00:00:05Z"⟩)) ∧
    (lookup (.error refusal)).2.requests = requests ∧
    (lookup (.error refusal)).1.result = .error refusal := by
  intro older newest tied first last refusal lookup requests
  have answered : ∀ second k (h : k < [first].length),
      answerAt { pages := [.ok first, second] } k = .ok [first][k] := by
    rintro second k h
    obtain rfl := Nat.lt_one_iff.mp h
    rfl
  have continued : ∀ page ∈ [first], page.next.isSome := by simp [first]
  refine ⟨?_, ?_⟩
  · obtain ⟨hrequests, found, hresult, -, hfound⟩ :=
      (findImage_untagged "eu-west-1" "provider" rfl [first] (answered last) continued).1
        ⟨[tied], none⟩ rfl rfl
    obtain rfl := (hfound newest).mpr
      ⟨[older], [tied], rfl, by decide, by simp [tied, newest, ImageDetail.rank]⟩
    have htime : (PushTime.text? ⟨5, 1⟩).getD "" = "1970-01-01T00:00:05Z" := by decide +kernel
    refine ⟨hrequests, hresult.trans ?_⟩
    simp only [newest, Option.map_some, Option.getD_some, Option.bind_some, htime]
  · exact (findImage_untagged "eu-west-1" "provider" rfl [first] (answered (.error refusal))
      continued).2 refusal rfl

end Cloud

end MountMatrix
