import SlhaV2.SingleFloat

/-!
# The Jacobi eigendecomposition

Sweeps of plane rotations over a square matrix in double precision, until its
off-diagonal part is negligible. Matrices are flat lists, row after row; every
index the loops use lies inside them.
-/
namespace SlhaV2.JacobiEigen
open SingleFloat

/-- An entry of a flat matrix or of a vector. -/
def entry (a : List Float) (i : ℕ) : Float := a.getD i 0

/-- `f64::signum`. -/
def signum (x : Float) : Float :=
  if x.isNaN then x else if x.toBits < 0x8000000000000000 then 1 else -1

/-- Squared norm of the part above the diagonal. -/
def offDiagonal (n : ℕ) (a : List Float) : Float :=
  (List.range n).foldl (fun off p => (List.range' (p + 1) (n - (p + 1))).foldl
    (fun off q => off + entry a (p * n + q) * entry a (p * n + q)) off) 0

/-- Rotate the two entries of a flat matrix at `i` and `j`. -/
def rotate (c s : Float) (i j : ℕ) (a : List Float) : List Float :=
  let x := entry a i
  let y := entry a j
  (a.set i (c * x - s * y)).set j (s * x + c * y)

/-- One rotation in the plane of `p` and `q`, on the matrix and on the accumulated vectors. -/
def rotation (n p q : ℕ) (av : List Float × List Float) : List Float × List Float :=
  let (a, v) := av
  let apq := entry a (p * n + q)
  if apq.abs.lt 1e-300 then (a, v)
  else
    let app := entry a (p * n + p)
    let aqq := entry a (q * n + q)
    let theta := (aqq - app) / (2 * apq)
    let t := if theta == 0 then 1 else signum theta / (theta.abs + (theta * theta + 1).sqrt)
    let c := 1 / (t * t + 1).sqrt
    let s := t * c
    let a := (List.range n).foldl (fun a k => rotate c s (k * n + p) (k * n + q) a) a
    let a := (List.range n).foldl (fun a k => rotate c s (p * n + k) (q * n + k) a) a
    let v := (List.range n).foldl (fun v k => rotate c s (k * n + p) (k * n + q) v) v
    (a, v)

def sweep (n : ℕ) (av : List Float × List Float) : List Float × List Float :=
  (List.range n).foldl (fun av p =>
    (List.range' (p + 1) (n - (p + 1))).foldl (fun av q => rotation n p q av) av) av

/-- At most so many sweeps. -/
def sweeps (n : ℕ) : ℕ → List Float × List Float → List Float × List Float
  | 0, av => av
  | fuel + 1, av =>
      if (offDiagonal n av.1).le 1e-20 then av else sweeps n fuel (sweep n av)

def maxSweeps : ℕ := 100

def identity (n : ℕ) : List Float :=
  (List.range (n * n)).map fun i => if i / n = i % n then 1 else 0

/-- Eigenvalues, and the eigenvectors as columns. -/
def jacobiEigh (aIn : List Float32) (n : ℕ) : List Float × List Float :=
  let (a, v) := sweeps n maxSweeps (aIn.map widen, identity n)
  ((List.range n).map fun i => entry a (i * n + i), v)

end SlhaV2.JacobiEigen
