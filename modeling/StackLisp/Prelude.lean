/-!
# The prelude

Functions and macros written in the language itself, loaded before any program. Only function
literals, quotations, conditionals and the two assignments are built into the compiler; the usual
binding and control forms are macros of the prelude. A macro stands before its first use.
-/

namespace StackLisp

/-- The source text of the prelude. -/
def prelude : String := r#"
(def defmacro
  (macro!
    (fn defmacro (name args & body)
      (list 'def name (list 'macro! (list* 'fn name args body))))))

(defmacro defn (name args & body)
  (list 'def name (list* 'fn name args body)))

;; predicates

(defn not (x) (if x false true))
(defn nil? (x) (identical? x nil))
(defn list? (x) (identical? (type-of x) 'list))
(defn number? (x) (identical? (type-of x) 'number))
(defn string? (x) (identical? (type-of x) 'string))
(defn symbol? (x) (identical? (type-of x) 'symbol))
(defn boolean? (x) (identical? (type-of x) 'boolean))

;; lists

(defn first (l) (if (nil? l) nil (nth l 0)))
(defn second (l) (first (rest l)))
(defn third (l) (second (rest l)))
(defn fourth (l) (third (rest l)))

(defn map (f l)
  (if (nil? l)
    nil
    (cons (f (first l)) (map f (rest l)))))

(defn filter (pred l)
  (if (nil? l)
    nil
    (if (pred (first l))
      (cons (first l) (filter pred (rest l)))
      (filter pred (rest l)))))

(defn range (from to)
  (if (< from to)
    (cons from (range (+ from 1) to))
    nil))

;; binding and control

(defmacro do (& body)
  (list (list* 'fn nil body)))

(defmacro let (bindings & body)
  (cons (list* 'fn (map first bindings) body)
        (map second bindings)))

;; the names are bound to nil first, so that the functions see each other
(defmacro letfn (fns & body)
  (list* 'let
         (map (fn (f) (list (first f) nil)) fns)
         (concat (map (fn (f) (list 'set! (first f) (cons 'fn f))) fns)
                 body)))

(defmacro or (& forms)
  (if (nil? forms)
    nil
    (if (nil? (rest forms))
      (first forms)
      (let ((g (gensym "or")))
        (list 'let (list (list g (first forms)))
              (list 'if g g (cons 'or (rest forms))))))))

(defmacro and (& forms)
  (if (nil? forms)
    true
    (if (nil? (rest forms))
      (first forms)
      (let ((g (gensym "and")))
        (list 'let (list (list g (first forms)))
              (list 'if g (cons 'and (rest forms)) g))))))

(defmacro when (test & body)
  (list 'if test (cons 'do body)))
"#

end StackLisp
